import Zeroxos.Agex.Ast

/-!
# The agex code generator

`codegen.rs`: a syntax tree is written out as Rust. An expression becomes a string, which depends on
two things the generator keeps (`Scope`): the fields of the class whose method it is in, and the
sealed classes met so far. Statements and declarations become lines, appended to the output at the
indentation of the moment.

## State

The indentation is a `usize`, and taking one from 0 would be a panic, so `Gen` is a state monad over
`Option`. That no program leads there is a result, not an assumption. The lowering to the HIR copies
the tree, and the generator is here given the tree itself.
-/

namespace Zeroxos

namespace Agex

/-- A sealed class: its variants, and the names of their fields. -/
abbrev SealedClass := String × List (String × List String)

/-- What the generator knows when it writes an expression. -/
structure Scope where
  /-- `in_method_fields` -/
  inMethodFields : List String
  /-- `sealed_classes` -/
  sealedClasses : List SealedClass

structure Generator extends Scope where
  out : String
  indent : ℕ
  warnings : List String

structure GenResult where
  rust : String
  warnings : List String

def Generator.new : Generator := ⟨⟨[], []⟩, "", 0, []⟩

def join (sep : String) : List String → String
  | [] => ""
  | [s] => s
  | s :: t :: l => s ++ sep ++ join sep (t :: l)

/-! ## Types -/

def agexTypeMap : List (String × String) :=
  [("int", "i32"), ("i8", "i8"), ("i16", "i16"), ("i32", "i32"), ("i64", "i64"),
    ("u8", "u8"), ("u16", "u16"), ("u32", "u32"), ("u64", "u64"),
    ("usize", "usize"), ("isize", "isize"),
    ("f32", "f32"), ("f64", "f64"),
    ("String", "String"), ("string", "String"), ("str", "&str"),
    ("bool", "bool"), ("char", "char"),
    ("Any", "impl std::any::Any"),
    ("Result", "Result"), ("Option", "Option"), ("Vec", "Vec")]

/-- The Rust name of a type. -/
def baseType (name : String) : String :=
  ((agexTypeMap.find? fun k ↦ k.1 = name).map Prod.snd).getD name

/-- A type, or an option of it. -/
def orOption (nullable : Bool) (rust : String) : String :=
  if nullable then "Option<" ++ rust ++ ">" else rust

mutual

def genType : TypeNode → String
  | .infer nullable => if nullable then "Option<impl std::any::Any>" else "_"
  | .named name nullable => orOption nullable (baseType name)
  | .generic name args nullable =>
    orOption nullable (baseType name ++ "<" ++ join ", " (genTypes args) ++ ">")
  | .pointer inner nullable => orOption nullable ("*mut " ++ genType inner)

/-- `gen_type` of each. -/
def genTypes : List TypeNode → List String
  | [] => []
  | t :: l => genType t :: genTypes l

end

/-- `matches!(ty, TypeNode::Infer { .. })` -/
def TypeNode.isInfer : TypeNode → Bool
  | .infer _ => true
  | _ => false

/-- The return type in a signature. -/
def genReturn (t : TypeNode) : String := if t.isInfer then "" else " -> " ++ genType t

/-- A name and its type. -/
def genTyped (p : Param) : String := p.name ++ ": " ++ genType p.ty

/-- The parameters of a signature that takes them as they are. -/
def genTypedParams (params : List Param) : String := join ", " (params.map genTyped)

def genParams (params : List Param) (isExtension : Bool) : String :=
  join ", " ((if isExtension then ["&self"] else [])
    ++ params.map fun p ↦ (if p.mutable then "mut " else "") ++ genTyped p)

/-! ## Expressions -/

/-- `matches!(e, Expr::String { .. })` -/
def Expr.isString : Expr → Bool
  | .string _ => true
  | _ => false

/-- The name, if the expression is one. -/
def Expr.ident? : Expr → Option String
  | .ident name => some name
  | _ => none

/-- The fields of a variant, looked up in one sealed class. -/
def SealedClass.fields? (c : SealedClass) (enumName variant : String) : Option (List String) :=
  if c.1 = enumName then (c.2.find? fun v ↦ v.1 = variant).map Prod.snd else none

/-- The fields of a variant: the first that the sealed classes have for it. -/
def sealedFields (sealedClasses : List SealedClass) (enumName variant : String) :
    Option (List String) :=
  sealedClasses.findSome? fun c ↦ c.fields? enumName variant

/-- The name of the field that argument `i` of a variant is for. -/
def fieldName (fieldNames : List String) (i : ℕ) : String :=
  fieldNames[i]?.getD ("field" ++ toString i)

/-- What `println` writes between its quotes for an argument. -/
def placeholder : Expr → String
  | .string value => value
  | _ => "\x7b\x7d"

/-- The texts of the arguments that are no string literals. -/
def nonStrings (args : List Expr) (texts : List String) : List String :=
  ((args.zip texts).filter fun p ↦ !p.1.isString).map Prod.snd

/-- `println!` of the arguments. -/
def printlnText (args : List Expr) (texts : List String) : String :=
  if args.isEmpty then "println!()"
  else
    let fmt := join " " (args.map placeholder)
    let rest := nonStrings args texts
    if rest.isEmpty then "println!(\"" ++ fmt ++ "\")"
    else "println!(\"" ++ fmt ++ "\", " ++ join ", " rest ++ ")"

/-- An argument of `new`: a string literal is made a `String`. -/
def newArg (arg : Expr) (text : String) : String :=
  if arg.isString then text ++ ".to_string()" else text

/-- A value of a sealed class: the variant, with its fields named. -/
def variantText (enumName variant : String) (fieldNames args : List String) : String :=
  let pairs := args.mapIdx fun i arg ↦ fieldName fieldNames i ++ ": " ++ arg
  enumName ++ "::" ++ variant ++ " \x7b " ++ join ", " pairs ++ " \x7d"

/-- A method call. Some names are translated, and their arguments left out. -/
def methodText (recv name : String) (args : List String) : String :=
  if name = "uppercase" then recv ++ ".to_uppercase()"
  else if name = "lowercase" then recv ++ ".to_lowercase()"
  else if name = "length" ∨ name = "len" then recv ++ ".len()"
  else recv ++ "." ++ name ++ "(" ++ join ", " args ++ ")"

/-- A field. -/
def fieldText (recv name : String) : String :=
  if name = "length" ∨ name = "len" then recv ++ ".len()" else recv ++ "." ++ name

mutual

def genExpr (s : Scope) : Expr → String
  | .int value => value
  | .float value => value
  | .string value => "\"" ++ value ++ "\""
  | .bool value => if value then "true" else "false"
  | .null => "None"
  | .this => "self"
  | .ident name => if s.inMethodFields.contains name then "self." ++ name else name
  | .binary op left right =>
    if op = "+" ∧ (left.isString ∨ right.isString) then
      "format!(\"\x7b\x7d\x7b\x7d\", " ++ genExpr s left ++ ", " ++ genExpr s right ++ ")"
    else "(" ++ genExpr s left ++ " " ++ op ++ " " ++ genExpr s right ++ ")"
  | .unary op operand =>
    if op = "&" then "&" ++ genExpr s operand else "(" ++ op ++ genExpr s operand ++ ")"
  | .call callee args =>
    if callee.ident? = some "range" then "(0.." ++ (genExprs s args).headD "0" ++ ")"
    else if callee.ident? = some "println" then printlnText args (genExprs s args)
    else genExpr s callee ++ "(" ++ join ", " (genExprs s args) ++ ")"
  | .method recv name args =>
    match recv.ident?.bind fun enumName ↦ sealedFields s.sealedClasses enumName name with
    | some fieldNames =>
      variantText (recv.ident?.getD "") name fieldNames (genExprs s args)
    | none => methodText (genExpr s recv) name (genExprs s args)
  | .field recv name => fieldText (genExpr s recv) name
  | .safeCall recv name args =>
    genExpr s recv ++ ".as_ref().and_then(|r| Some(r." ++ name ++ "("
      ++ join ", " (genExprs s args) ++ ")))"
  | .elvis left right => genExpr s left ++ ".unwrap_or(" ++ genExpr s right ++ ")"
  | .new typeName args =>
    typeName ++ "::new(" ++ join ", " (args.zipWith newArg (genExprs s args)) ++ ")"
  | .cast expr typeName => genExpr s expr ++ " as " ++ typeName

/-- `gen_expr` of each. -/
def genExprs (s : Scope) : List Expr → List String
  | [] => []
  | e :: l => genExpr s e :: genExprs s l

end

/-! ## Lines -/

/-- A function of the generator. -/
abbrev Gen := StateT Generator Option

/-- The spaces before a line. -/
def padding (indent : ℕ) : String := String.join (List.replicate indent "    ")

/-- A line as it is written. -/
def lineText (indent : ℕ) (line : String) : String :=
  if line.isEmpty then "\n" else padding indent ++ line ++ "\n"

def emit (line : String) : Gen Unit :=
  modify fun g ↦ { g with out := g.out ++ lineText g.indent line }

/-- `emit` of a line that has expressions in it. -/
def emitIn (line : Scope → String) : Gen Unit := do emit (line (← get).toScope)

/-- `self.indent += 1` -/
def moreIndent : Gen Unit := modify fun g ↦ { g with indent := g.indent + 1 }

/-- `self.indent -= 1` -/
def lessIndent : Gen Unit := do
  let g ← get
  if g.indent = 0 then failure else set { g with indent := g.indent - 1 }

/-- Lines one step further in. -/
def indented (p : Gen Unit) : Gen Unit := do
  moreIndent
  p
  lessIndent

/-- A loop that writes something for each element. -/
def each {α : Type} (f : α → Gen Unit) : List α → Gen Unit
  | [] => pure ()
  | a :: l => do
    f a
    each f l

/-- The closing brace. -/
def close : Gen Unit := emit "\x7d"

/-- `self.in_method_fields = fields` -/
def setFields (fields : List String) : Gen Unit :=
  modify fun g ↦ { g with inMethodFields := fields }

/-! ## Statements -/

/-- `let`, `const` and `var` without the keyword, with the type if one was written. -/
def genBinding (name : String) (ty : TypeNode) (init : Expr) (s : Scope) : String :=
  if ty.isInfer then name ++ " = " ++ genExpr s init ++ ";"
  else name ++ ": " ++ genType ty ++ " = " ++ genExpr s init ++ ";"

/-- `Stmt::Let` and `Stmt::Var`. -/
def genLet (keyword name : String) (ty : TypeNode) : Option Expr → Gen Unit
  | some init => emitIn fun s ↦ keyword ++ genBinding name ty init s
  | none => emit (keyword ++ name ++ ": " ++ genType ty ++ ";")

/-- `Stmt::Const` -/
def genConst (name : String) (ty : TypeNode) (init : Option Expr) : Gen Unit :=
  emitIn fun s ↦
    let init := (init.map (genExpr s)).getD ""
    if ty.isInfer then "let " ++ name ++ ": _ = " ++ init ++ ";"
    else "const " ++ name ++ ": " ++ genType ty ++ " = " ++ init ++ ";"

/-- The operator of an assignment. -/
def AssignOp.text : AssignOp → String
  | assign => "="
  | plusEq => "+="
  | minusEq => "-="
  | starEq => "*="
  | slashEq => "/="

/-- The arguments of a loop over a range. -/
def Expr.rangeArgs? : Expr → Option (List Expr)
  | .call callee args => if callee.ident? = some "range" then some args else none
  | _ => none

/-- The head of a loop. -/
def forHead (var : String) (iter : Expr) (s : Scope) : String :=
  match iter.rangeArgs? with
  | some args => "for " ++ var ++ " in 0.." ++ (genExprs s args).headD "0" ++ " \x7b"
  | none => "for " ++ var ++ " in " ++ genExpr s iter ++ " \x7b"

/-- The two sides of the first dot of a pattern. -/
def splitDot (pattern : String) : String × String :=
  (String.ofList (pattern.toList.takeWhile (· ≠ '.')),
    String.ofList (pattern.toList.dropWhile (· ≠ '.')).tail)

def formatCase (pattern : String) (bindings : List String) : String :=
  if pattern = "_" then "_"
  else if pattern = "Ok" ∨ pattern = "Err" then
    match bindings with
    | [binding] => pattern ++ "(" ++ binding ++ ")"
    | _ => pattern ++ "(..)"
  else if pattern.toList.contains '.' then
    let parts := splitDot pattern
    if bindings.isEmpty then parts.1 ++ "::" ++ parts.2 ++ " \x7b .. \x7d"
    else parts.1 ++ "::" ++ parts.2 ++ " \x7b " ++ join ", " bindings ++ " \x7d"
  else pattern

/-- The pattern of a case. -/
def MatchCase.pattern : MatchCase → String
  | mk pattern _ _ => pattern

mutual

/-- `gen_stmt`, with `gen_if`, `gen_for` and `gen_match`. -/
def genStmt : Stmt → Gen Unit
  | .letStmt name ty init => genLet "let " name ty init
  | .constStmt name ty init => genConst name ty init
  | .varStmt name ty init => genLet "let mut " name ty init
  | .assignStmt target op value =>
    emitIn fun s ↦ genExpr s target ++ " " ++ op.text ++ " " ++ genExpr s value ++ ";"
  | .returnStmt (some value) => emitIn fun s ↦ "return " ++ genExpr s value ++ ";"
  | .returnStmt none => emit "return;"
  | .ifStmt cond thenBody els => do
    emitIn fun s ↦ "if " ++ genExpr s cond ++ " \x7b"
    indented (genStmts thenBody)
    genElse els
    close
  | .forStmt var iter body => do
    emitIn (forHead var iter)
    indented (genStmts body)
    close
  | .matchStmt expr cases => do
    emitIn fun s ↦ "match " ++ genExpr s expr ++ " \x7b"
    indented do
      genCases cases
      if cases.any fun c ↦ c.pattern = "_" then pure () else emit "_ => \x7b\x7d"
    close
  | .exprStmt expr => emitIn fun s ↦ genExpr s expr ++ ";"
  | .printStmt args => emitIn fun s ↦ printlnText args (genExprs s args) ++ ";"
  | .unsafeStmt body => do
    emit "unsafe \x7b"
    indented (genStmts body)
    close

/-- `gen_stmt` of each. -/
def genStmts : List Stmt → Gen Unit
  | [] => pure ()
  | s :: l => do
    genStmt s
    genStmts l

/-- The other branch of an `if`. -/
def genElse : Option (List Stmt) → Gen Unit
  | none => pure ()
  | some els => do
    emit "\x7d else \x7b"
    indented (genStmts els)

/-- The cases of a `match`. -/
def genCases : List MatchCase → Gen Unit
  | [] => pure ()
  | c :: l => do
    genCase c
    genCases l

/-- One case of a `match`. -/
def genCase : MatchCase → Gen Unit
  | .mk pattern bindings body => do
    emit (formatCase pattern bindings ++ " => \x7b")
    indented (genStmts body)
    close

end

/-! ## Declarations -/

mutual

def stmtMutatesSelf : Stmt → Bool
  | .assignStmt (.field _ _) _ _ => true
  | .assignStmt (.ident _) _ _ => true
  | .ifStmt _ thenBody els => stmtsMutateSelf thenBody || elseMutatesSelf els
  | .matchStmt _ cases => casesMutateSelf cases
  | .unsafeStmt body => stmtsMutateSelf body
  | _ => false

/-- Whether one of the statements does. -/
def stmtsMutateSelf : List Stmt → Bool
  | [] => false
  | s :: l => stmtMutatesSelf s || stmtsMutateSelf l

/-- Whether the other branch of an `if` does. -/
def elseMutatesSelf : Option (List Stmt) → Bool
  | none => false
  | some els => stmtsMutateSelf els

/-- Whether one of the cases does. -/
def casesMutateSelf : List MatchCase → Bool
  | [] => false
  | c :: l => caseMutatesSelf c || casesMutateSelf l

/-- Whether the body of a case does. -/
def caseMutatesSelf : MatchCase → Bool
  | .mk _ _ body => stmtsMutateSelf body

end

def methodNeedsMut (f : FnDecl) : Bool := (f.body.map stmtsMutateSelf).getD false

/-- The expression a function returns, if it has one. -/
def genExprBody : Option Expr → Gen Unit
  | some expr => emitIn fun s ↦ genExpr s expr
  | none => pure ()

/-- The statements of a function, if it has any. -/
def genStmtBody : Option (List Stmt) → Gen Unit
  | some body => genStmts body
  | none => pure ()

/-- What is between the braces of a function. -/
def genBody (f : FnDecl) : Gen Unit := do
  genExprBody f.exprBody
  genStmtBody f.body

/-- The parameters after a receiver. -/
def withReceiver (receiver : String) (f : FnDecl) : String :=
  if f.params.isEmpty then receiver else receiver ++ ", " ++ genParams f.params false

/-- `unsafe`, if the function is. -/
def qualifier (f : FnDecl) : String := if f.isUnsafe then "unsafe " else ""

/-- The head of a function, which for an extension function opens an `impl` and for a method brings
the fields into scope. -/
def genFnHead (f : FnDecl) (isMethod : Bool) (fields : List String) : Gen Unit :=
  match f.receiver with
  | some recv => do
    emit ("impl " ++ recv ++ " \x7b")
    moreIndent
    let selfParam := if f.params.isEmpty then "self: Self" else withReceiver "self: &Self" f
    emit ("pub fn " ++ f.name ++ "(" ++ selfParam ++ ")" ++ genReturn f.returnType ++ " \x7b")
  | none =>
    if isMethod then do
      let selfParam := if methodNeedsMut f then "&mut self" else "&self"
      emit (qualifier f ++ "pub fn " ++ f.name ++ "(" ++ withReceiver selfParam f ++ ")"
        ++ genReturn f.returnType ++ " \x7b")
      setFields fields
    else
      emit (qualifier f ++ "pub fn " ++ f.name ++ "(" ++ genParams f.params false ++ ")"
        ++ genReturn f.returnType ++ " \x7b")

/-- The end of the `impl` around an extension function. -/
def genFnTail (f : FnDecl) : Gen Unit :=
  if f.receiver.isSome then do
    lessIndent
    close
  else pure ()

def genFnInner (f : FnDecl) (isMethod : Bool) (fields : List String) : Gen Unit := do
  genFnHead f isMethod fields
  indented (genBody f)
  close
  genFnTail f
  if isMethod then setFields [] else pure ()

def genFn (f : FnDecl) : Gen Unit := genFnInner f false []

/-- The name and the parameters of a function that is written without `pub`. -/
def genSignature (name : String) (params : List Param) (returnType : TypeNode) : String :=
  "fn " ++ name ++ "(" ++ genTypedParams params ++ ")" ++ genReturn returnType

def genExtern (e : ExternDecl) : Gen Unit := do
  emit ("extern \"" ++ e.abi ++ "\" \x7b")
  indented (each (fun f : ExternFn ↦ emit (genSignature f.name f.params f.returnType ++ ";")) e.fns)
  close

/-- `impl std::fmt::Display`, around the body of `fmt`. -/
def genDisplay (name : String) (body : Gen Unit) : Gen Unit := do
  emit ("impl std::fmt::Display for " ++ name ++ " \x7b")
  indented do
    emit "fn fmt(&self, f: &mut std::fmt::Formatter<'_>) -> std::fmt::Result \x7b"
    indented body
    close
  close

/-- A variant of a sealed class. -/
def genVariant : ClassDecl → Gen Unit
  | .mk name _ _ params _ _ _ =>
    emit (name ++ " \x7b " ++ genTypedParams params ++ " \x7d,")

/-- The case of a variant in `fmt`. -/
def genVariantDisplay (className : String) : ClassDecl → Gen Unit
  | .mk name _ _ params _ _ _ =>
    let names := join ", " (params.map Param.name)
    let parts := join ", " (params.map fun p ↦ "$\x7b" ++ p.name ++ "\x7d")
    emit (className ++ "::" ++ name ++ " \x7b " ++ names ++ " \x7d => write!(f, \"" ++ name
      ++ "(\" + " ++ parts ++ ".to_string() + \")\"),")

/-- What is registered for a sealed class. -/
def sealedClass (name : String) (subclasses : List ClassDecl) : SealedClass :=
  (name, subclasses.map fun | .mk name _ _ params _ _ _ => (name, params.map Param.name))

/-- `self.sealed_classes.push(c)` -/
def registerSealed (c : SealedClass) : Gen Unit :=
  modify fun g ↦ { g with sealedClasses := g.sealedClasses ++ [c] }

/-- The case of `gen_class` for a sealed class with subclasses. -/
def genSealed (name : String) (subclasses : List ClassDecl) : Gen Unit := do
  registerSealed (sealedClass name subclasses)
  emit ("pub enum " ++ name ++ " \x7b")
  indented (each genVariant subclasses)
  close
  genDisplay name do
    emit "match self \x7b"
    indented (each (genVariantDisplay name) subclasses)
    close

/-- The struct of a class, and its `impl` up to the members. -/
def genStruct (name : String) (params : List Param) (rest : Gen Unit) : Gen Unit := do
  emit ("pub struct " ++ name ++ " \x7b")
  indented (each (fun p ↦ emit ("pub " ++ genTyped p ++ ",")) params)
  close
  emit ("impl " ++ name ++ " \x7b")
  indented do
    emit ("pub fn new(" ++ genTypedParams params ++ ") -> Self \x7b")
    indented (emit ("Self \x7b " ++ join ", " (params.map Param.name) ++ " \x7d"))
    close
    rest
  close

/-- The accessors of a data class. -/
def genComponents (params : List Param) : Gen Unit :=
  each (fun p ↦ emit ("pub fn component_" ++ toString (p.2 + 1) ++ "(&self) -> &"
    ++ genType p.1.ty ++ " \x7b &self." ++ p.1.name ++ " \x7d")) params.zipIdx

/-- The members of a class. -/
def genMembers (params : List Param) (members : List FnDecl) : Gen Unit :=
  each (fun m ↦ genFnInner m true (params.map Param.name)) members

def genClass : ClassDecl → Gen Unit
  | .mk name isData isSealed params _ members subclasses =>
    if isSealed && !subclasses.isEmpty then genSealed name subclasses
    else if isData then do
      emit "#[derive(Debug, Clone, PartialEq)]"
      genStruct name params do
        genComponents params
        genMembers params members
      let parts := join ", " (params.map fun p ↦ "$\x7bself." ++ p.name ++ "\x7d")
      genDisplay name
        (emit ("write!(f, \"" ++ name ++ "(\" + \"" ++ parts ++ "\".to_string() + \")\")"))
    else genStruct name params (genMembers params members)

def genInterface (i : InterfaceDecl) : Gen Unit := do
  emit ("pub trait " ++ i.name ++ " \x7b")
  indented (each (fun m : FnDecl ↦
    if m.body.isSome || m.exprBody.isSome then do
      emit (genSignature m.name m.params m.returnType ++ " \x7b")
      indented (genBody m)
      close
    else emit (genSignature m.name m.params m.returnType ++ ";")) i.methods)
  close

def genObject (o : ObjectDecl) : Gen Unit := do
  emit ("pub struct " ++ o.name ++ ";")
  emit ("impl " ++ o.name ++ " \x7b")
  indented do
    emit ("pub fn instance() -> &'static " ++ o.name ++ " \x7b")
    indented do
      emit "use std::sync::OnceLock;"
      emit ("static INSTANCE: OnceLock<" ++ o.name ++ "> = OnceLock::new();")
      emit ("INSTANCE.get_or_init(|| " ++ o.name ++ ")")
    close
    each (fun m : FnDecl ↦ do
      emit ("pub " ++ genSignature m.name m.params m.returnType ++ " \x7b")
      indented (genBody m)
      close) o.members
  close

def genDriver (v : DriverDecl) : Gen Unit := do
  emit ("pub struct " ++ v.name ++ ";")
  emit ("impl " ++ v.implements ++ " for " ++ v.name ++ " \x7b")
  indented (each (fun m : FnDecl ↦ do
    emit (genSignature m.name m.params m.returnType ++ " \x7b")
    indented do
      genBody m
      if m.body.isSome then pure () else emit "// hardware setup"
    close) v.members)
  close

/-- The case of `gen_decl` for an import. -/
def genImport (i : ImportDecl) : Gen Unit := do
  emit ("// import " ++ i.module)
  if i.module = "graphics" ∨ i.module = "network" ∨ i.module = "filesystem" then
    emit ("mod " ++ i.module ++ ";")
  else pure ()

def genDecl : Decl → Gen Unit
  | .importDecl i => genImport i
  | .externDecl e => genExtern e
  | .fn f => genFn f
  | .classDecl c => genClass c
  | .interface i => genInterface i
  | .object o => genObject o
  | .driver v => genDriver v
  | .stmt _ => pure ()

/-! ## Programs -/

/-- A bare statement at the top level. -/
def Decl.stmt? : Decl → Option Stmt
  | .stmt s => some s
  | _ => none

/-- What is written before the items. -/
def genHeader : Gen Unit := do
  emit "// Generated from agex source by the agex compiler (agc)"
  emit "#![allow(dead_code, unused_variables, unused_imports, unused_mut)]"
  emit ""
  emit "use std::prelude::v1::*;"
  emit ""

/-- An item, and an empty line. -/
def genItem (d : Decl) : Gen Unit := do
  genDecl d
  emit ""

/-- The function that the top-level statements are collected in. -/
def genMain (stmts : List Stmt) : Gen Unit :=
  if stmts.isEmpty then pure ()
  else do
    emit "fn main() \x7b"
    indented (genStmts stmts)
    close

/-- The body of `generate`. -/
def genProgram (prog : Program) : Gen Unit := do
  genHeader
  each genItem (prog.decls.filter fun d ↦ d.stmt?.isNone)
  genMain (prog.decls.filterMap Decl.stmt?)

def generate (prog : Program) : Option GenResult := do
  let (_, g) ← genProgram prog Generator.new
  return ⟨g.out, g.warnings⟩

end Agex

end Zeroxos
