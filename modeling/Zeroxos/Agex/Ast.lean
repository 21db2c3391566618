import Mathlib.Tactic.Common

/-!
# The agex syntax tree

The types of `ast.rs`, with the boxes left out. Where a constructor's name in the source is a word
of Lean it has `Stmt` behind it.
-/

namespace Zeroxos

namespace Agex

inductive TypeNode
  | infer (nullable : Bool)
  | named (name : String) (nullable : Bool)
  | generic (name : String) (args : List TypeNode) (nullable : Bool)
  | pointer (inner : TypeNode) (nullable : Bool)
deriving Repr

/-- `TypeNode::infer` -/
def TypeNode.inferred : TypeNode := .infer false

/-- The same type, nullable. -/
def TypeNode.nullable : TypeNode → TypeNode
  | .infer _ => .infer true
  | .named name _ => .named name true
  | .generic name args _ => .generic name args true
  | .pointer inner _ => .pointer inner true

inductive Expr
  | int (value : String)
  | float (value : String)
  | string (value : String)
  | bool (value : Bool)
  | null
  | this
  | ident (name : String)
  | binary (op : String) (left right : Expr)
  | unary (op : String) (operand : Expr)
  | call (callee : Expr) (args : List Expr)
  | method (recv : Expr) (name : String) (args : List Expr)
  | field (recv : Expr) (name : String)
  | safeCall (recv : Expr) (name : String) (args : List Expr)
  | elvis (left right : Expr)
  | new (typeName : String) (args : List Expr)
  | cast (expr : Expr) (typeName : String)
deriving Repr

inductive AssignOp
  | assign | plusEq | minusEq | starEq | slashEq
deriving Repr, DecidableEq

mutual

inductive Stmt
  | letStmt (name : String) (ty : TypeNode) (init : Option Expr)
  | constStmt (name : String) (ty : TypeNode) (init : Option Expr)
  | varStmt (name : String) (ty : TypeNode) (init : Option Expr)
  | assignStmt (target : Expr) (op : AssignOp) (value : Expr)
  | returnStmt (value : Option Expr)
  | ifStmt (cond : Expr) (thenBody : List Stmt) (els : Option (List Stmt))
  | forStmt (var : String) (iter : Expr) (body : List Stmt)
  | matchStmt (expr : Expr) (cases : List MatchCase)
  | printStmt (args : List Expr)
  | unsafeStmt (body : List Stmt)
  | exprStmt (expr : Expr)

inductive MatchCase
  | mk (pattern : String) (bindings : List String) (body : List Stmt)

end

structure Param where
  name : String
  ty : TypeNode
  mutable : Bool
  default : Option Expr

structure FnDecl where
  name : String
  params : List Param
  returnType : TypeNode
  body : Option (List Stmt)
  exprBody : Option Expr
  isAsync : Bool
  isUnsafe : Bool
  receiver : Option String

inductive ClassDecl
  | mk (name : String) (isData isSealed : Bool) (params : List Param) (bases : List String)
    (members : List FnDecl) (subclasses : List ClassDecl)

structure InterfaceDecl where
  name : String
  methods : List FnDecl

structure ObjectDecl where
  name : String
  members : List FnDecl

structure DriverDecl where
  name : String
  implements : String
  members : List FnDecl

structure ImportDecl where
  module : String

structure ExternFn where
  name : String
  params : List Param
  returnType : TypeNode

structure ExternDecl where
  abi : String
  fns : List ExternFn

inductive Decl
  | fn (decl : FnDecl)
  | classDecl (decl : ClassDecl)
  | interface (decl : InterfaceDecl)
  | object (decl : ObjectDecl)
  | driver (decl : DriverDecl)
  | importDecl (decl : ImportDecl)
  | externDecl (decl : ExternDecl)
  | stmt (stmt : Stmt)

structure Program where
  decls : List Decl

end Agex

end Zeroxos
