import Zeroxos.Agex.Parser
import Zeroxos.Agex.Relex
import Zeroxos.Library.CursorParallel

/-!
# Places of tokens and the agex parser

Of a token the parser uses the type and the text. The line and the column go into the errors, and
nowhere else: every function of the parser does the same on tokens that differ in their places only,
returns the same, and reports the same errors but for the place.
-/

namespace Zeroxos

namespace Agex

open Parse

/-- The same token, perhaps at another place. -/
def SameKind (t t' : Token) : Prop := t.kind = t'.kind

/-- An error of the lexer, or the same message about the same token. -/
inductive SameError : ParseError → ParseError → Prop
  | lexer (e : LexerError) : SameError (.lexer e) (.lexer e)
  | unexpected (line col line' col' : ℕ) (msg got : String) :
      SameError (.unexpected line col msg got) (.unexpected line' col' msg got)

/-- The two do the same on tokens that differ in their places. -/
abbrev Matches {α : Type} (p q : P α) : Prop := Parallel SameKind SameError Eq p q

/-- The parser does not see places. -/
abbrev Blind {α : Type} (p : P α) : Prop := Matches p p

variable {α β : Type} {fuel : ℕ} {ty next : TokenType} {p q p' q' : P α}

/-! ## The cursor -/

theorem SameKind.eq {t t' : Token} (h : SameKind t t') :
    t' = { t with line := t'.line, col := t'.col } := by
  obtain ⟨hty, hvalue⟩ := Prod.mk.inj h
  rw [hty, hvalue]

theorem token_bind {p : P Token} {f g : Token → P α} (hp : Parallel SameKind SameError SameKind p p)
    (h : ∀ t line col, Matches (f t) (g { t with line := line, col := col })) :
    Matches (p >>= f) (p >>= g) := by
  refine hp.bind fun t t' ht ↦ ?_
  rw [ht.eq]
  exact h t _ _

theorem cur_bind {f g : Token → P α}
    (h : ∀ t line col, Matches (f t) (g { t with line := line, col := col })) :
    Matches (cur >>= f) (cur >>= g) := token_bind .current h

theorem unexpected_matches (msg : String) (t : Token) (line col : ℕ) :
    Matches (fail (unexpected msg t) : P α)
      (fail (unexpected msg { t with line := line, col := col })) :=
  .fail (.unexpected _ _ _ _ _ _)

theorem isAt_blind : Blind (isAt ty) := cur_bind fun _ _ _ ↦ .pure rfl

theorem ifAt_blind (hp : Blind p) (hq : Blind q) : Blind (ifAt ty p q) :=
  isAt_blind.bind_eq fun _ ↦ .ite (fun _ ↦ hp) fun _ ↦ hq

theorem ifAtThen_blind (hp : Blind p) (hq : Blind q) : Blind (ifAtThen ty next p q) := by
  refine isAt_blind.bind_eq fun _ ↦ .ite (fun _ ↦ ?_) fun _ ↦ hq
  exact token_bind (.lookahead 1) fun _ _ _ ↦ .ite (fun _ ↦ hp) fun _ ↦ hq

theorem eat_parallel : Parallel SameKind SameError SameKind (eat ty) (eat ty) := by
  refine isAt_blind.bind_eq fun _ ↦ .ite (fun _ ↦ ?_) fun _ ↦ ?_
  · exact Parallel.current.bind fun _ _ h ↦ Parallel.advance.bind_eq fun _ ↦ .pure h
  · refine Parallel.current.bind fun t t' h ↦ ?_
    rw [h.eq]
    exact .fail (.unexpected _ _ _ _ _ _)

theorem eat_blind {f : Token → P α}
    (h : ∀ t line col, Matches (f t) (f { t with line := line, col := col })) :
    Blind (eat ty >>= f) := token_bind eat_parallel h

theorem eatCur_parallel : Parallel SameKind SameError SameKind eatCur eatCur := by
  refine Parallel.current.bind fun t t' h ↦ ?_
  rw [h.eq]
  exact eat_parallel

theorem maybe_parallel :
    Parallel SameKind SameError (Option.Rel SameKind) (maybe ty) (maybe ty) := by
  refine isAt_blind.bind_eq fun _ ↦ .ite (fun _ ↦ ?_) fun _ ↦ .pure .none
  exact Parallel.current.bind fun _ _ h ↦ Parallel.advance.bind_eq fun _ ↦ .pure (.some h)

theorem maybe_isSome_blind : Blind (do return (← maybe ty).isSome) := by
  refine maybe_parallel.bind fun o o' h ↦ ?_
  cases h with
  | none => exact .pure rfl
  | some _ => exact .pure rfl

theorem ifMaybe_blind (hp : Blind p) (hq : Blind q) : Blind (ifMaybe ty p q) := by
  refine maybe_parallel.bind fun o o' h ↦ ?_
  cases h with
  | none => exact .ite (fun _ ↦ hp) fun _ ↦ hq
  | some _ => exact .ite (fun _ ↦ hp) fun _ ↦ hq

theorem moreItems_blind {item : P α} (hitem : Blind item) (out : List α) :
    Blind (moreItems item fuel out) :=
  .whileLoop maybe_isSome_blind (fun _ ↦ hitem.bind_pure) fuel out

theorem items_blind {close : TokenType} {item : P α} (hitem : Blind item) :
    Blind (items close item fuel) :=
  ifAt_blind (.pure rfl) (hitem.bind_eq fun a ↦ moreItems_blind hitem [a])

theorem whileNotAt_blind {close : TokenType} {item : P α} (hitem : Blind item) :
    Blind (whileNotAt close item fuel) := by
  have hcond : Blind (do return !(← isAt close)) := isAt_blind.bind_pure
  exact .whileLoop hcond (fun _ ↦ hitem.bind_pure) fuel []

/-! ## Types -/

theorem parseType_blind : Blind (parseType fuel) := by
  induction fuel with
  | zero => exact .outOfFuel
  | succ fuel ih =>
    rw [parseType]
    refine Parallel.bind_eq (ifAt_blind ?_ ?_) fun t ↦ ifMaybe_blind (.pure rfl) (.pure rfl)
    · exact eat_blind fun _ _ _ ↦ ih.bind_pure
    · refine eat_blind fun name _ _ ↦ ifMaybe_blind ?_ (.pure rfl)
      exact (items_blind ih).bind_eq fun args ↦ eat_blind fun _ _ _ ↦ .pure rfl

/-! ## Expressions -/

section Expr

variable {parseExpr : P Expr}

theorem parseArgs_blind (hexpr : Blind parseExpr) : Blind (parseArgs parseExpr fuel) :=
  eat_blind fun _ _ _ ↦ (items_blind hexpr).bind_eq fun _ ↦ eat_blind fun _ _ _ ↦ .pure rfl

theorem parseNamed_blind (hexpr : Blind parseExpr) (isPrint : Bool) (value : String) :
    Blind (parseNamed parseExpr fuel isPrint value) := by
  have hargs : Blind (parseArgs parseExpr fuel) := parseArgs_blind hexpr
  refine .ite (fun _ ↦ .pure rfl) fun _ ↦ .ite (fun _ ↦ .pure rfl) fun _ ↦
    .ite (fun _ ↦ .pure rfl) fun _ ↦ isAt_blind.bind_eq fun atParen ↦ ?_
  exact .ite (fun _ ↦ hargs.bind_pure) fun _ ↦
    .ite (fun _ ↦ ifAt_blind hargs.bind_pure (.pure rfl)) fun _ ↦ .pure rfl

theorem parseName_matches (hexpr : Blind parseExpr) (tok : Token) (line col : ℕ) :
    Matches (parseName parseExpr fuel tok)
      (parseName parseExpr fuel { tok with line := line, col := col }) :=
  isAt_blind.bind_eq fun isPrint ↦ token_bind eatCur_parallel fun _ _ _ ↦
    parseNamed_blind hexpr isPrint tok.value

theorem parsePrimary_blind (hexpr : Blind parseExpr) : Blind (parsePrimary parseExpr fuel) := by
  refine cur_bind fun tok line col ↦ ?_
  obtain ⟨ty, value, line', col'⟩ := tok
  cases ty with
  | intLiteral => exact eat_blind fun _ _ _ ↦ .pure rfl
  | floatLiteral => exact eat_blind fun _ _ _ ↦ .pure rfl
  | stringLiteral => exact eat_blind fun _ _ _ ↦ .pure rfl
  | charLiteral => exact eat_blind fun _ _ _ ↦ .pure rfl
  | lParen => exact eat_blind fun _ _ _ ↦ hexpr.bind_eq fun e ↦ eat_blind fun _ _ _ ↦ .pure rfl
  | ident => exact parseName_matches hexpr ⟨.ident, value, line', col'⟩ line col
  | printKw => exact parseName_matches hexpr ⟨.printKw, value, line', col'⟩ line col
  | rangeKw => exact parseName_matches hexpr ⟨.rangeKw, value, line', col'⟩ line col
  | _ => exact .fail (.unexpected _ _ _ _ _ _)

theorem postfixRound_blind (hexpr : Blind parseExpr) (expr : Expr) :
    Blind (postfixRound parseExpr fuel expr) := by
  have hargs : Blind (parseArgs parseExpr fuel) := parseArgs_blind hexpr
  refine ifAt_blind ?_ (ifAtThen_blind ?_ (ifAt_blind hargs.bind_pure (.pure rfl)))
  · exact eat_blind fun _ _ _ ↦ eat_blind fun name _ _ ↦ ifAt_blind hargs.bind_pure (.pure rfl)
  · exact eat_blind fun _ _ _ ↦ eat_blind fun _ _ _ ↦ eat_blind fun name _ _ ↦
      ifAt_blind hargs.bind_pure (.pure rfl)

theorem parsePostfix_blind (hexpr : Blind parseExpr) : Blind (parsePostfix parseExpr fuel) :=
  (parsePrimary_blind hexpr).bind_eq fun expr ↦ .loop (postfixRound_blind hexpr) fuel expr

theorem parseUnary_blind (hexpr : Blind parseExpr) (depth : ℕ) :
    Blind (parseUnary parseExpr fuel depth) := by
  induction depth with
  | zero => exact .outOfFuel
  | succ depth ih =>
    refine cur_bind fun t _ _ ↦ .ite (fun _ ↦ ?_) fun _ ↦ ?_
    · exact token_bind eatCur_parallel fun _ _ _ ↦ ih.bind_pure
    · exact ifAt_blind (eat_blind fun _ _ _ ↦ ih.bind_pure) (parsePostfix_blind hexpr)

/-- **A chain of operators**, whose texts do not depend on where they are. -/
theorem operatorChain_blind {isOp : TokenType → Bool} {op : Token → String} {operand : P Expr}
    (hop : ∀ t line col, op { t with line := line, col := col } = op t) (hoperand : Blind operand) :
    Blind (operatorChain fuel isOp op operand) := by
  refine hoperand.bind_eq fun left ↦ .whileLoop (cur_bind fun _ _ _ ↦ .pure rfl) (fun left ↦ ?_)
    fuel left
  refine token_bind eatCur_parallel fun tok line col ↦ ?_
  rw [hop tok line col]
  exact hoperand.bind_pure

theorem parseMul_blind (hexpr : Blind parseExpr) : Blind (parseMul parseExpr fuel) :=
  operatorChain_blind (fun _ _ _ ↦ rfl) (parseUnary_blind hexpr fuel)

theorem parseAdd_blind (hexpr : Blind parseExpr) : Blind (parseAdd parseExpr fuel) :=
  operatorChain_blind (fun _ _ _ ↦ rfl) (parseMul_blind hexpr)

theorem parseIs_blind (hexpr : Blind parseExpr) : Blind (parseIs parseExpr fuel) := by
  refine (parseAdd_blind hexpr).bind_eq fun left ↦ .whileLoop ?_ (fun left ↦ ?_) fuel left
  · exact ifAt_blind (cur_bind fun _ _ _ ↦ .pure rfl) (.pure rfl)
  · exact eat_blind fun _ _ _ ↦ eat_blind fun _ _ _ ↦ .pure rfl

theorem parseCmp_blind (hexpr : Blind parseExpr) : Blind (parseCmp parseExpr fuel) :=
  operatorChain_blind (fun _ _ _ ↦ rfl) (parseIs_blind hexpr)

theorem parseEq_blind (hexpr : Blind parseExpr) : Blind (parseEq parseExpr fuel) :=
  operatorChain_blind (fun _ _ _ ↦ rfl) (parseCmp_blind hexpr)

theorem parseAnd_blind (hexpr : Blind parseExpr) : Blind (parseAnd parseExpr fuel) :=
  operatorChain_blind (fun _ _ _ ↦ rfl) (parseEq_blind hexpr)

theorem parseOr_blind (hexpr : Blind parseExpr) : Blind (parseOr parseExpr fuel) :=
  operatorChain_blind (fun _ _ _ ↦ rfl) (parseAnd_blind hexpr)

theorem parseElvis_blind (hexpr : Blind parseExpr) : Blind (parseElvis parseExpr fuel) := by
  refine (parseOr_blind hexpr).bind_eq fun left ↦ .whileLoop ?_ (fun left ↦ ?_) fuel left
  · exact ifAtThen_blind (.pure rfl) (.pure rfl)
  · exact eat_blind fun _ _ _ ↦ eat_blind fun _ _ _ ↦ (parseOr_blind hexpr).bind_pure

end Expr

/-- **Expressions.** -/
theorem parseExpr_blind : Blind (parseExpr fuel) := by
  induction fuel with
  | zero => exact .outOfFuel
  | succ fuel ih => exact parseElvis_blind ih

/-! ## Statements -/

section Stmt

variable {parseStmt : P Stmt}

theorem parseStmts_blind (hstmt : Blind parseStmt) : Blind (parseStmts parseStmt fuel) := by
  have hcond : Blind (ifAt .rBrace (return false) (return !(← isAt .eof))) :=
    ifAt_blind (.pure rfl) isAt_blind.bind_pure
  exact .whileLoop hcond (fun _ ↦ hstmt.bind_pure) fuel []

theorem parseBlock_blind (hstmt : Blind parseStmt) : Blind (parseBlock parseStmt fuel) :=
  eat_blind fun _ _ _ ↦ (parseStmts_blind hstmt).bind_eq fun _ ↦ eat_blind fun _ _ _ ↦ .pure rfl

theorem ifAssign_blind : Blind (ifMaybe .assign (return some (← parseExpr fuel)) (return none)) :=
  ifMaybe_blind parseExpr_blind.bind_pure (.pure rfl)

theorem parseBinding_blind {kw : TokenType} {mk : String → TypeNode → Option Expr → Stmt} :
    Blind (parseBinding fuel kw mk) := by
  refine eat_blind fun _ _ _ ↦ eat_blind fun name _ _ ↦ ?_
  exact (ifMaybe_blind parseType_blind (.pure rfl)).bind_eq fun ty ↦ ifAssign_blind.bind_pure

theorem parseReturn_blind : Blind (parseReturn fuel) :=
  eat_blind fun _ _ _ ↦ ifAt_blind (.pure rfl) <| ifAt_blind (.pure rfl) <|
    ifAt_blind (.pure rfl) parseExpr_blind.bind_pure

theorem parseIf_blind (hstmt : Blind parseStmt) (depth : ℕ) :
    Blind (parseIf parseStmt fuel depth) := by
  induction depth with
  | zero => exact .outOfFuel
  | succ depth ih =>
    have hblock : Blind (parseBlock parseStmt fuel) := parseBlock_blind hstmt
    refine eat_blind fun _ _ _ ↦ parseExpr_blind.bind_eq fun cond ↦ hblock.bind_eq fun thenBody ↦
      Parallel.bind_eq (ifMaybe_blind ?_ (.pure rfl)) fun els ↦ .pure rfl
    exact ifAt_blind ih.bind_pure hblock.bind_pure

theorem parseFor_blind (hstmt : Blind parseStmt) : Blind (parseFor parseStmt fuel) :=
  eat_blind fun _ _ _ ↦ eat_blind fun _ _ _ ↦ eat_blind fun _ _ _ ↦ parseExpr_blind.bind_eq fun _ ↦
    (parseBlock_blind hstmt).bind_pure

theorem parseBindings_blind : Blind (parseBindings fuel) := by
  have hname : Blind (do return (← eat .ident).value) := eat_blind fun _ _ _ ↦ .pure rfl
  refine ifMaybe_blind ?_ (.pure rfl)
  exact (items_blind hname).bind_eq fun _ ↦ eat_blind fun _ _ _ ↦ .pure rfl

theorem parsePattern_blind : Blind (parsePattern fuel) := by
  refine ifAt_blind ?_ (ifAt_blind (eat_blind fun _ _ _ ↦ .pure rfl) (.pure rfl))
  refine eat_blind fun first _ _ ↦ ?_
  refine (Parallel.whileLoop maybe_isSome_blind (fun _ ↦ ?_) fuel first.value).bind_eq
    fun pattern ↦ parseBindings_blind.bind_pure
  exact eat_blind fun _ _ _ ↦ .pure rfl

theorem parseCase_blind (hstmt : Blind parseStmt) : Blind (parseCase parseStmt fuel) := by
  refine parsePattern_blind.bind_eq fun head ↦ eat_blind fun _ _ _ ↦
    Parallel.bind_eq (ifMaybe_blind ?_ hstmt.bind_pure) fun body ↦ .pure rfl
  exact (parseStmts_blind hstmt).bind_eq fun _ ↦ eat_blind fun _ _ _ ↦ .pure rfl

theorem parseMatch_blind (hstmt : Blind parseStmt) : Blind (parseMatch parseStmt fuel) :=
  eat_blind fun _ _ _ ↦ parseExpr_blind.bind_eq fun _ ↦ eat_blind fun _ _ _ ↦
    (whileNotAt_blind (parseCase_blind hstmt)).bind_eq fun _ ↦ eat_blind fun _ _ _ ↦ .pure rfl

theorem parsePrint_blind : Blind (parsePrint fuel) :=
  eat_blind fun _ _ _ ↦ (parseArgs_blind parseExpr_blind).bind_pure

theorem parseUnsafe_blind (hstmt : Blind parseStmt) : Blind (parseUnsafe parseStmt fuel) :=
  eat_blind fun _ _ _ ↦ (parseBlock_blind hstmt).bind_pure

theorem parseExprOrAssign_blind : Blind (parseExprOrAssign fuel) := by
  refine parseExpr_blind.bind_eq fun expr ↦ cur_bind fun t _ _ ↦ ?_
  dsimp only
  cases assignOp t.ty with
  | some op => exact token_bind eatCur_parallel fun _ _ _ ↦ parseExpr_blind.bind_pure
  | none => exact .pure rfl

end Stmt

/-- **Statements.** -/
theorem parseStmt_blind : Blind (parseStmt fuel) := by
  induction fuel with
  | zero => exact .outOfFuel
  | succ fuel ih =>
    refine cur_bind fun t line col ↦ ?_
    obtain ⟨ty, value, line', col'⟩ := t
    cases ty with
    | letKw => exact parseBinding_blind
    | constKw => exact parseBinding_blind
    | varKw => exact parseBinding_blind
    | returnKw => exact parseReturn_blind
    | ifKw => exact parseIf_blind ih _
    | forKw => exact parseFor_blind ih
    | matchKw => exact parseMatch_blind ih
    | printKw => exact parsePrint_blind
    | unsafeKw => exact parseUnsafe_blind ih
    | _ => exact parseExprOrAssign_blind

/-! ## Declarations -/

theorem paramRound_blind (params : List Param) : Blind (paramRound fuel params) := by
  refine ifAt_blind (.pure rfl) (Parallel.bind_eq (ifAt_blind (eat_blind fun _ _ _ ↦ .pure rfl)
    (.pure rfl)) fun mutable ↦ eat_blind fun name _ _ ↦ eat_blind fun _ _ _ ↦ ?_)
  exact parseType_blind.bind_eq fun ty ↦ ifAssign_blind.bind_eq fun default ↦
    ifMaybe_blind (.pure rfl) (.pure rfl)

theorem parseParams_blind : Blind (parseParams fuel) := .loop paramRound_blind fuel []

theorem parseSignature_blind : Blind (parseSignature fuel) :=
  eat_blind fun _ _ _ ↦ parseParams_blind.bind_eq fun _ ↦ eat_blind fun _ _ _ ↦
    (ifMaybe_blind parseType_blind (.pure rfl)).bind_pure

theorem parseExternFn_blind : Blind (parseExternFn fuel) :=
  eat_blind fun _ _ _ ↦ eat_blind fun _ _ _ ↦ parseSignature_blind.bind_pure

theorem parseExtern_blind : Blind (parseExtern fuel) := by
  refine eat_blind fun _ _ _ ↦ maybe_parallel.bind fun o o' h ↦ ?_
  have hvalue : o.map Token.value = o'.map Token.value := by
    cases h with
    | none => rfl
    | some h => exact congrArg some (Prod.mk.inj h).2
  rw [hvalue]
  exact eat_blind fun _ _ _ ↦ (whileNotAt_blind parseExternFn_blind).bind_eq fun _ ↦
    eat_blind fun _ _ _ ↦ .pure rfl

theorem parseInterruptAsStmt_blind : Blind (parseInterruptAsStmt fuel) :=
  eat_blind fun _ _ _ ↦ eat_blind fun _ _ _ ↦ eat_blind fun _ _ _ ↦ eat_blind fun _ _ _ ↦
    (parseBlock_blind parseStmt_blind).bind_pure

theorem parseExprBody_blind : Blind (parseExprBody fuel) :=
  token_bind eatCur_parallel fun _ _ _ ↦ parseExpr_blind.bind_eq fun _ ↦
    maybe_parallel.bind fun _ _ _ ↦ .pure rfl

theorem parseFnBody_blind : Blind (parseFnBody fuel) := by
  refine ifAt_blind parseExprBody_blind <| ifAt_blind parseExprBody_blind <| ifAt_blind ?_ ?_
  · exact (parseBlock_blind parseStmt_blind).bind_pure
  · exact cur_bind fun t line col ↦ unexpected_matches _ t line col

theorem parseFn_blind (isAsync isUnsafe : Bool) : Blind (parseFn fuel isAsync isUnsafe) := by
  have hasync : Parallel SameKind SameError (fun _ _ ↦ True)
      (if isAsync then (return some (← eat .asyncKw)) else return none : P (Option Token))
      (if isAsync then (return some (← eat .asyncKw)) else return none) :=
    .ite (fun _ ↦ eat_parallel.bind fun _ _ _ ↦ .pure trivial) fun _ ↦ .pure trivial
  refine hasync.bind fun _ _ _ ↦ eat_blind fun _ _ _ ↦ Parallel.bind_eq (ifAtThen_blind ?_
    (.pure rfl)) fun receiver ↦ ?_
  · exact eat_blind fun _ _ _ ↦ eat_blind fun _ _ _ ↦ .pure rfl
  · exact eat_blind fun _ _ _ ↦ parseSignature_blind.bind_eq fun _ ↦ parseFnBody_blind.bind_pure

theorem skipOptionalParens_blind : Blind (skipOptionalParens fuel) := by
  have hcond : Blind (ifAt .rParen (return false) (return !(← isAt .eof))) :=
    ifAt_blind (.pure rfl) isAt_blind.bind_pure
  refine ifAt_blind (eat_parallel.attempt.bind fun _ _ _ ↦ ?_) (.pure rfl)
  exact (Parallel.whileLoop hcond (fun _ ↦ .advance) fuel ()).bind_eq fun _ ↦
    eat_parallel.attempt.bind fun _ _ _ ↦ .pure rfl

theorem parseBase_blind : Blind (parseBase fuel) :=
  eat_blind fun _ _ _ ↦ skipOptionalParens_blind.bind_pure

theorem parseMember_blind : Blind (parseMember fuel) :=
  ifAt_blind (parseFn_blind _ _) (cur_bind fun t line col ↦ unexpected_matches _ t line col)

theorem classMembers_blind : Blind (ifMaybe .lBrace (do
    let members ← whileNotAt .rBrace (parseMember fuel) fuel
    let _ ← eat .rBrace
    return (members, ([] : List ClassDecl))) (return ([], []))) := by
  refine ifMaybe_blind ((whileNotAt_blind parseMember_blind).bind_eq fun _ ↦ ?_) (.pure rfl)
  exact eat_blind fun _ _ _ ↦ .pure rfl

theorem parseClass_blind (depth : ℕ) (isData isSealed : Bool) :
    Blind (parseClass fuel depth isData isSealed) := by
  induction depth generalizing isData isSealed with
  | zero => exact .outOfFuel
  | succ depth ih =>
    have hparams : Blind (ifMaybe .lParen (do
        let params ← parseParams fuel
        let _ ← eat .rParen
        return params) (return [])) :=
      ifMaybe_blind (parseParams_blind.bind_eq fun _ ↦ eat_blind fun _ _ _ ↦ .pure rfl) (.pure rfl)
    refine eat_blind fun name _ _ ↦ hparams.bind_eq fun params ↦ Parallel.bind_eq (ifMaybe_blind
      (parseBase_blind.bind_eq fun _ ↦ moreItems_blind parseBase_blind _) (.pure rfl))
      fun bases ↦ ?_
    refine Parallel.bind_eq (.ite (fun _ ↦ ifAtThen_blind (eat_blind fun _ _ _ ↦ ?_)
      classMembers_blind) fun _ ↦ classMembers_blind) fun body ↦ .pure rfl
    -- the subclasses of a sealed class
    exact (whileNotAt_blind (eat_blind fun _ _ _ ↦ ih false false)).bind_eq fun _ ↦
      eat_blind fun _ _ _ ↦ .pure rfl

theorem parseMethods_blind : Blind (parseMethods fuel) :=
  eat_blind fun _ _ _ ↦ (whileNotAt_blind (parseFn_blind _ _)).bind_eq fun _ ↦
    eat_blind fun _ _ _ ↦ .pure rfl

theorem parseDriver_blind : Blind (parseDriver fuel) :=
  eat_blind fun _ _ _ ↦ eat_blind fun _ _ _ ↦ eat_blind fun _ _ _ ↦ eat_blind fun _ _ _ ↦
    parseMethods_blind.bind_pure

theorem parseDecl_blind : Blind (parseDecl fuel) := by
  have hclass : ∀ isData isSealed, Blind (do
      let _ ← eat .classKw
      return Decl.classDecl (← parseClass fuel fuel isData isSealed)) := fun isData isSealed ↦
    eat_blind fun _ _ _ ↦ (parseClass_blind fuel isData isSealed).bind_pure
  refine ifAt_blind (Parallel.bind_pure (eat_blind fun _ _ _ ↦ eat_blind fun _ _ _ ↦ .pure rfl)) ?_
  refine ifAt_blind parseExtern_blind.bind_pure <| ifAt_blind (parseFn_blind _ _).bind_pure <|
    ifAt_blind (parseFn_blind _ _).bind_pure <| ifAtThen_blind (eat_blind fun _ _ _ ↦ ?_) ?_
  · exact (parseFn_blind _ _).bind_pure
  refine ifAt_blind parseInterruptAsStmt_blind.bind_pure <|
    ifAt_blind (eat_blind fun _ _ _ ↦ hclass true false) <|
    ifAt_blind (eat_blind fun _ _ _ ↦ hclass false true) <| ifAt_blind (hclass false false) ?_
  refine ifAt_blind (Parallel.bind_pure ?_) <| ifAt_blind (Parallel.bind_pure ?_) <|
    ifAt_blind parseDriver_blind.bind_pure parseStmt_blind.bind_pure
  · exact eat_blind fun _ _ _ ↦ eat_blind fun _ _ _ ↦ parseMethods_blind.bind_pure
  · exact eat_blind fun _ _ _ ↦ eat_blind fun _ _ _ ↦ parseMethods_blind.bind_pure

/-- **The parser does not see places.** -/
theorem parseProgram_blind : Blind (parseProgram fuel) :=
  (whileNotAt_blind parseDecl_blind).bind_pure

end Agex

end Zeroxos
