import Zeroxos.Agex.Ast
import Zeroxos.Agex.Lexer
import Zeroxos.Library.Cursor

/-!
# The agex parser

The functions of `parser.rs` in the monad of parsers with a cursor.

## Fuel

`fuel` bounds the rounds of every loop and the depth of every recursion; a function that others are
mutually recursive with is handed to them as a parser, and the knot is tied where the function
itself is defined. Running out of fuel is an outcome of its own, different from an error, and does
not happen with as much fuel as there are tokens.

## Shared pieces

What the source writes out several times has a name here: the two ways to branch on the token under
the cursor, the list of items between commas, the arguments in parentheses, the block in braces, and
the chain of operators of one precedence. Each function of the source keeps its own definition, in
terms of these.
-/

namespace Zeroxos

namespace Agex

open Parse

inductive ParseError
  | lexer (e : LexerError)
  | unexpected (line col : ℕ) (msg got : String)
deriving DecidableEq, Repr

/-- An agex parser. -/
abbrev P (α : Type) : Type := Parse Token ParseError α

variable {α : Type}

/-! ## The cursor -/

/-- `ParseError::Unexpected` at a token. -/
def unexpected (msg : String) (t : Token) : ParseError :=
  .unexpected t.line t.col msg (t.ty.debug ++ " '" ++ t.value ++ "'")

def cur : P Token := current

def peek (off : ℕ) : P Token := lookahead off

/-- `Parser::at` -/
def isAt (ty : TokenType) : P Bool := do return (← cur).ty = ty

def eat (ty : TokenType) : P Token := do
  if ← isAt ty then
    let t ← cur
    advance
    return t
  else
    let t ← cur
    fail (unexpected ("expected " ++ ty.debug) t)

/-- `self.eat(self.cur().ty.clone())` -/
def eatCur : P Token := do eat (← cur).ty

def maybe (ty : TokenType) : P (Option Token) := do
  if ← isAt ty then
    let t ← cur
    advance
    return some t
  else return none

/-- `if self.at(ty) { p } else { q }` -/
def ifAt (ty : TokenType) (p q : P α) : P α := do if ← isAt ty then p else q

/-- `if self.at(ty) && self.peek(1).ty == next { p } else { q }` -/
def ifAtThen (ty next : TokenType) (p q : P α) : P α := do
  if ← isAt ty then if (← peek 1).ty = next then p else q else q

/-- `if self.maybe(ty).is_some() { p } else { q }` -/
def ifMaybe (ty : TokenType) (p q : P α) : P α := do if (← maybe ty).isSome then p else q

/-- `while self.maybe(Comma).is_some() { out.push(item) }` -/
def moreItems (item : P α) (fuel : ℕ) (out : List α) : P (List α) :=
  whileLoop (do return (← maybe .comma).isSome) (fun out ↦ do return out ++ [← item]) fuel out

/-- Items between commas, up to a closing token that is left alone. -/
def items (close : TokenType) (item : P α) (fuel : ℕ) : P (List α) :=
  ifAt close (return []) do moreItems item fuel [← item]

/-- `while !self.at(close) { out.push(item) }` -/
def whileNotAt (close : TokenType) (item : P α) (fuel : ℕ) : P (List α) :=
  whileLoop (do return !(← isAt close)) (fun out ↦ do return out ++ [← item]) fuel []

/-! ## Types -/

def parseType : ℕ → P TypeNode
  | 0 => outOfFuel
  | fuel + 1 => do
    let t ← ifAt .star (do
        let _ ← eat .star
        return .pointer (← parseType fuel) false)
      (do
        let name := (← eat .ident).value
        ifMaybe .lBracket (do
            let args ← items .rBracket (parseType fuel) (fuel + 1)
            let _ ← eat .rBracket
            return .generic name args false)
          (return .named name false))
    ifMaybe .question (return t.nullable) (return t)

/-! ## Expressions -/

section Expr

variable (parseExpr : P Expr) (fuel : ℕ)

/-- Arguments in parentheses. -/
def parseArgs : P (List Expr) := do
  let _ ← eat .lParen
  let args ← items .rParen parseExpr fuel
  let _ ← eat .rParen
  return args

/-- Whether the first character of a name is an upper-case letter; names are ASCII. -/
def startsUppercase (value : String) : Bool := value.toList.head?.any Char.isUpper

/-- What `parse_primary` makes of an identifier, `print` or `range` that it has eaten. -/
def parseNamed (isPrint : Bool) (value : String) : P Expr :=
  if value = "true" ∨ value = "false" then return .bool (value = "true")
  else if value = "null" then return .null
  else if value = "this" then return .this
  else do
    let atParen ← isAt .lParen
    if atParen && startsUppercase value then return .new value (← parseArgs parseExpr fuel)
    else if isPrint then
      ifAt .lParen (return .call (.ident "println") (← parseArgs parseExpr fuel))
        (return .ident value)
    else return .ident value

/-- The case of `parse_primary` for identifiers, `print` and `range`. -/
def parseName (tok : Token) : P Expr := do
  let isPrint ← isAt .printKw
  let _ ← eatCur
  parseNamed parseExpr fuel isPrint tok.value

def parsePrimary : P Expr := do
  let tok ← cur
  match tok.ty with
  | .intLiteral =>
    let _ ← eat .intLiteral
    return .int tok.value
  | .floatLiteral =>
    let _ ← eat .floatLiteral
    return .float tok.value
  | .stringLiteral =>
    let _ ← eat .stringLiteral
    return .string tok.value
  | .charLiteral =>
    let _ ← eat .charLiteral
    return .string tok.value
  | .lParen =>
    let _ ← eat .lParen
    let e ← parseExpr
    let _ ← eat .rParen
    return e
  | .ident => parseName parseExpr fuel tok
  | .printKw => parseName parseExpr fuel tok
  | .rangeKw => parseName parseExpr fuel tok
  | _ => fail (unexpected "unexpected token in expression" tok)

/-- A round of the loop of `parse_postfix`. -/
def postfixRound (expr : Expr) : P (Round Expr) :=
  ifAt .dot (do
      let _ ← eat .dot
      let name := (← eat .ident).value
      ifAt .lParen (return .again (.method expr name (← parseArgs parseExpr fuel)))
        (return .again (.field expr name))) <|
  ifAtThen .question .dot (do
      let _ ← eat .question
      let _ ← eat .dot
      let name := (← eat .ident).value
      ifAt .lParen (return .again (.safeCall expr name (← parseArgs parseExpr fuel)))
        (return .again (.safeCall expr name []))) <|
  ifAt .lParen (return .again (.call expr (← parseArgs parseExpr fuel))) (return .exit expr)

def parsePostfix : P Expr := do
  loop (postfixRound parseExpr fuel) fuel (← parsePrimary parseExpr fuel)

def parseUnary : ℕ → P Expr
  | 0 => outOfFuel
  | depth + 1 => do
    let ty := (← cur).ty
    if ty = .not ∨ ty = .minus then
      let op := (← eatCur).value
      return .unary op (← parseUnary depth)
    else
      ifAt .amp (do
          let _ ← eat .amp
          return .unary "&" (← parseUnary depth))
        (parsePostfix parseExpr fuel)

/-- A chain of operators of one precedence, to the left. -/
def operatorChain (isOp : TokenType → Bool) (op : Token → String) (operand : P Expr) : P Expr := do
  whileLoop (do return isOp (← cur).ty)
    (fun left ↦ do
      let tok ← eatCur
      return .binary (op tok) left (← operand))
    fuel (← operand)

def parseMul : P Expr :=
  operatorChain fuel (fun ty ↦ ty = .star ∨ ty = .slash ∨ ty = .percent) Token.value
    (parseUnary parseExpr fuel fuel)

def parseAdd : P Expr :=
  operatorChain fuel (fun ty ↦ ty = .plus ∨ ty = .minus) Token.value (parseMul parseExpr fuel)

def parseIs : P Expr := do
  whileLoop (ifAt .ident (return (← cur).value = "is") (return false))
    (fun left ↦ do
      let _ ← eat .ident
      let typeName := (← eat .ident).value
      return .cast left typeName)
    fuel (← parseAdd parseExpr fuel)

def parseCmp : P Expr :=
  operatorChain fuel (fun ty ↦ ty = .lt ∨ ty = .le ∨ ty = .gt ∨ ty = .ge) Token.value
    (parseIs parseExpr fuel)

def parseEq : P Expr :=
  operatorChain fuel (fun ty ↦ ty = .eq ∨ ty = .neq) Token.value (parseCmp parseExpr fuel)

def parseAnd : P Expr :=
  operatorChain fuel (fun ty ↦ ty = .and) (fun _ ↦ "&&") (parseEq parseExpr fuel)

def parseOr : P Expr :=
  operatorChain fuel (fun ty ↦ ty = .or) (fun _ ↦ "||") (parseAnd parseExpr fuel)

def parseElvis : P Expr := do
  whileLoop (ifAtThen .question .colon (return true) (return false))
    (fun left ↦ do
      let _ ← eat .question
      let _ ← eat .colon
      return .elvis left (← parseOr parseExpr fuel))
    fuel (← parseOr parseExpr fuel)

end Expr

def parseExpr : ℕ → P Expr
  | 0 => outOfFuel
  | fuel + 1 => parseElvis (parseExpr fuel) (fuel + 1)

/-! ## Statements -/

section Stmt

variable (parseStmt : P Stmt) (fuel : ℕ)

def parseStmts : P (List Stmt) :=
  whileLoop (ifAt .rBrace (return false) (return !(← isAt .eof)))
    (fun out ↦ do return out ++ [← parseStmt]) fuel []

/-- Statements in braces. -/
def parseBlock : P (List Stmt) := do
  let _ ← eat .lBrace
  let body ← parseStmts parseStmt fuel
  let _ ← eat .rBrace
  return body

/-- What `parse_let`, `parse_const` and `parse_var` have in common. -/
def parseBinding (kw : TokenType) (mk : String → TypeNode → Option Expr → Stmt) : P Stmt := do
  let _ ← eat kw
  let name := (← eat .ident).value
  let ty ← ifMaybe .colon (parseType fuel) (return .inferred)
  let init ← ifMaybe .assign (return some (← parseExpr fuel)) (return none)
  return mk name ty init

def parseLet : P Stmt := parseBinding fuel .letKw .letStmt

def parseConst : P Stmt := parseBinding fuel .constKw .constStmt

def parseVar : P Stmt := parseBinding fuel .varKw .varStmt

def parseReturn : P Stmt := do
  let _ ← eat .returnKw
  ifAt .rBrace (return .returnStmt none) <|
  ifAt .semicolon (return .returnStmt none) <|
  ifAt .eof (return .returnStmt none) (return .returnStmt (some (← parseExpr fuel)))

def parseIf : ℕ → P Stmt
  | 0 => outOfFuel
  | depth + 1 => do
    let _ ← eat .ifKw
    let cond ← parseExpr fuel
    let thenBody ← parseBlock parseStmt fuel
    let els ← ifMaybe .elseKw
      (ifAt .ifKw (return some [← parseIf depth]) (return some (← parseBlock parseStmt fuel)))
      (return none)
    return .ifStmt cond thenBody els

def parseFor : P Stmt := do
  let _ ← eat .forKw
  let var := (← eat .ident).value
  let _ ← eat .inKw
  let iter ← parseExpr fuel
  let body ← parseBlock parseStmt fuel
  return .forStmt var iter body

/-- The bindings of a case, if it has any. -/
def parseBindings : P (List String) :=
  ifMaybe .lParen (do
      let bindings ← items .rParen (do return (← eat .ident).value) fuel
      let _ ← eat .rParen
      return bindings)
    (return [])

/-- The pattern of a case and its bindings. -/
def parsePattern : P (String × List String) :=
  ifAt .ident (do
      let first := (← eat .ident).value
      let pattern ← whileLoop (do return (← maybe .dot).isSome)
        (fun pattern ↦ do return pattern ++ "." ++ (← eat .ident).value) fuel first
      return (pattern, ← parseBindings fuel)) <|
  ifAt .star (do
      let _ ← eat .star
      return ("_", []))
    (return ("", []))

/-- A round of the loop of `parse_match`. -/
def parseCase : P MatchCase := do
  let head ← parsePattern fuel
  let _ ← eat .fatArrow
  let body ← ifMaybe .lBrace (do
      let body ← parseStmts parseStmt fuel
      let _ ← eat .rBrace
      return body)
    (return [← parseStmt])
  return .mk head.1 head.2 body

def parseMatch : P Stmt := do
  let _ ← eat .matchKw
  let expr ← parseExpr fuel
  let _ ← eat .lBrace
  let cases ← whileNotAt .rBrace (parseCase parseStmt fuel) fuel
  let _ ← eat .rBrace
  return .matchStmt expr cases

def parsePrint : P Stmt := do
  let _ ← eat .printKw
  return .printStmt (← parseArgs (parseExpr fuel) fuel)

def parseUnsafe : P Stmt := do
  let _ ← eat .unsafeKw
  return .unsafeStmt (← parseBlock parseStmt fuel)

/-- The operators of an assignment. -/
def assignOp : TokenType → Option AssignOp
  | .assign => some .assign
  | .plusEq => some .plusEq
  | .minusEq => some .minusEq
  | .starEq => some .starEq
  | .slashEq => some .slashEq
  | _ => none

def parseExprOrAssign : P Stmt := do
  let expr ← parseExpr fuel
  match assignOp (← cur).ty with
  | some op =>
    let _ ← eatCur
    return .assignStmt expr op (← parseExpr fuel)
  | none => return .exprStmt expr

end Stmt

def parseStmt : ℕ → P Stmt
  | 0 => outOfFuel
  | fuel + 1 => do
    match (← cur).ty with
    | .letKw => parseLet (fuel + 1)
    | .constKw => parseConst (fuel + 1)
    | .varKw => parseVar (fuel + 1)
    | .returnKw => parseReturn (fuel + 1)
    | .ifKw => parseIf (parseStmt fuel) (fuel + 1) (fuel + 1)
    | .forKw => parseFor (parseStmt fuel) (fuel + 1)
    | .matchKw => parseMatch (parseStmt fuel) (fuel + 1)
    | .printKw => parsePrint (fuel + 1)
    | .unsafeKw => parseUnsafe (parseStmt fuel) (fuel + 1)
    | _ => parseExprOrAssign (fuel + 1)

/-! ## Declarations -/

section Decl

variable (fuel : ℕ)

def parseImport : P ImportDecl := do
  let _ ← eat .importKw
  let module := (← eat .ident).value
  return ⟨module⟩

/-- A round of the loop of `parse_params`. -/
def paramRound (params : List Param) : P (Round (List Param)) :=
  ifAt .rParen (return .exit params) do
    let mutable ← ifAt .varKw (do
        let _ ← eat .varKw
        return true)
      (return false)
    let name := (← eat .ident).value
    let _ ← eat .colon
    let ty ← parseType fuel
    let default ← ifMaybe .assign (return some (← parseExpr fuel)) (return none)
    let params := params ++ [⟨name, ty, mutable, default⟩]
    ifMaybe .comma (return .again params) (return .last params)

def parseParams : P (List Param) := loop (paramRound fuel) fuel []

/-- A parameter list in parentheses and a return type. -/
def parseSignature : P (List Param × TypeNode) := do
  let _ ← eat .lParen
  let params ← parseParams fuel
  let _ ← eat .rParen
  return (params, ← ifMaybe .arrow (parseType fuel) (return .inferred))

/-- A round of the loop of `parse_extern`. -/
def parseExternFn : P ExternFn := do
  let _ ← eat .fnKw
  let name := (← eat .ident).value
  let signature ← parseSignature fuel
  return ⟨name, signature.1, signature.2⟩

def parseExtern : P ExternDecl := do
  let _ ← eat .externKw
  let abi := ((← maybe .stringLiteral).map Token.value).getD "Rust"
  let _ ← eat .lBrace
  let fns ← whileNotAt .rBrace (parseExternFn fuel) fuel
  let _ ← eat .rBrace
  return ⟨abi, fns⟩

/-- `parse_interrupt_as_stmt`: the handler becomes an unsafe block. -/
def parseInterruptAsStmt : P Stmt := do
  let _ ← eat .interruptKw
  let _ ← eat .ident
  let _ ← eat .lParen
  let _ ← eat .rParen
  return .unsafeStmt (← parseBlock (parseStmt fuel) fuel)

/-- The body of a function after `=>` or `=`. -/
def parseExprBody : P (Option (List Stmt) × Option Expr) := do
  let _ ← eatCur
  let body ← parseExpr fuel
  let _ ← maybe .semicolon
  return (none, some body)

/-- The body of a function. -/
def parseFnBody : P (Option (List Stmt) × Option Expr) :=
  ifAt .fatArrow (parseExprBody fuel) <|
  ifAt .assign (parseExprBody fuel) <|
  ifAt .lBrace (return (some (← parseBlock (parseStmt fuel) fuel), none)) do
    fail (unexpected "expected function body or =>" (← cur))

def parseFn (isAsync isUnsafe : Bool) : P FnDecl := do
  let _ ← (if isAsync then return some (← eat .asyncKw) else return none)
  let _ ← eat .fnKw
  let receiver ← ifAtThen .ident .dot (do
      let receiver := (← eat .ident).value
      let _ ← eat .dot
      return some receiver)
    (return none)
  let name := (← eat .ident).value
  let signature ← parseSignature fuel
  let body ← parseFnBody fuel
  return ⟨name, signature.1, signature.2, body.1, body.2, isAsync, isUnsafe, receiver⟩

def skipOptionalParens : P Unit :=
  ifAt .lParen (do
      let _ ← attempt (eat .lParen)
      whileLoop (ifAt .rParen (return false) (return !(← isAt .eof))) (fun _ ↦ advance) fuel ()
      let _ ← attempt (eat .rParen)
      return ())
    (return ())

/-- A base class, and the arguments it is given. -/
def parseBase : P String := do
  let name := (← eat .ident).value
  skipOptionalParens fuel
  return name

/-- A round of the loop over the members of a class. -/
def parseMember : P FnDecl :=
  ifAt .fnKw (parseFn fuel false false) do
    fail (unexpected "expected fn inside class body" (← cur))

def parseClass : ℕ → Bool → Bool → P ClassDecl
  | 0, _, _ => outOfFuel
  | depth + 1, isData, isSealed => do
    let name := (← eat .ident).value
    let params ← ifMaybe .lParen (do
        let params ← parseParams fuel
        let _ ← eat .rParen
        return params)
      (return [])
    let bases ← ifMaybe .colon (do moreItems (parseBase fuel) fuel [← parseBase fuel]) (return [])
    let members := ifMaybe .lBrace (do
        let members ← whileNotAt .rBrace (parseMember fuel) fuel
        let _ ← eat .rBrace
        return (members, []))
      (return ([], []))
    let body ← (if isSealed then
        ifAtThen .lBrace .classKw (do
            let _ ← eat .lBrace
            let subclasses ← whileNotAt .rBrace (do
              let _ ← eat .classKw
              parseClass depth false false) fuel
            let _ ← eat .rBrace
            return ([], subclasses))
          members
      else members)
    return .mk name isData isSealed params bases body.1 body.2

/-- The methods of an interface, and the members of an object or a driver. -/
def parseMethods : P (List FnDecl) := do
  let _ ← eat .lBrace
  let methods ← whileNotAt .rBrace (parseFn fuel false false) fuel
  let _ ← eat .rBrace
  return methods

def parseInterface : P InterfaceDecl := do
  let _ ← eat .interfaceKw
  let name := (← eat .ident).value
  return ⟨name, ← parseMethods fuel⟩

def parseObject : P ObjectDecl := do
  let _ ← eat .objectKw
  let name := (← eat .ident).value
  return ⟨name, ← parseMethods fuel⟩

def parseDriver : P DriverDecl := do
  let _ ← eat .driverKw
  let name := (← eat .ident).value
  let _ ← eat .colon
  let implements := (← eat .ident).value
  return ⟨name, implements, ← parseMethods fuel⟩

def parseDecl : P Decl :=
  ifAt .importKw (return .importDecl (← parseImport)) <|
  ifAt .externKw (return .externDecl (← parseExtern fuel)) <|
  ifAt .asyncKw (return .fn (← parseFn fuel false false)) <|
  ifAt .fnKw (return .fn (← parseFn fuel false false)) <|
  ifAtThen .unsafeKw .fnKw (do
      let _ ← eat .unsafeKw
      return .fn (← parseFn fuel false true)) <|
  ifAt .interruptKw (return .stmt (← parseInterruptAsStmt fuel)) <|
  ifAt .dataKw (do
      let _ ← eat .dataKw
      let _ ← eat .classKw
      return .classDecl (← parseClass fuel fuel true false)) <|
  ifAt .sealedKw (do
      let _ ← eat .sealedKw
      let _ ← eat .classKw
      return .classDecl (← parseClass fuel fuel false true)) <|
  ifAt .classKw (do
      let _ ← eat .classKw
      return .classDecl (← parseClass fuel fuel false false)) <|
  ifAt .interfaceKw (return .interface (← parseInterface fuel)) <|
  ifAt .objectKw (return .object (← parseObject fuel)) <|
  ifAt .driverKw (return .driver (← parseDriver fuel)) <|
  return .stmt (← parseStmt fuel)

def parseProgram : P Program := do return ⟨← whileNotAt .eof (parseDecl fuel) fuel⟩

end Decl

/-- `Parser::new` -/
def newParser (toks : List Token) : Cursor Token := ⟨toks, 0, []⟩

def parse (fuel : ℕ) (src : String) : Outcome ParseError Program :=
  match tokenize src with
  | none => .outOfFuel
  | some (.error e) => .err (.lexer e)
  | some (.ok toks) => (parseProgram fuel (newParser toks)).1

end Agex

end Zeroxos
