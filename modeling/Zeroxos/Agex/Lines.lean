import Zeroxos.Agex.DeclOrder

/-!
# The lines of the output

What the generator writes for a statement or a declaration is a list of lines, each with its
indentation, and the list is a function of the tree and of the scope. `Prints` says so of a function
of the generator, whatever the indentation is that it starts from; there is one rule for each
construct, and the program as a whole is the lines of its header, its items and `main`.
-/

namespace Zeroxos

namespace Agex

/-- A line, and how far it is indented. -/
abbrev Line := ℕ × String

/-- The text of lines, from indentation `i` on. -/
def layout (i : ℕ) (lines : List Line) : String :=
  String.join (lines.map fun l ↦ lineText (i + l.1) l.2)

/-- Lines one step further in. -/
def deeper (lines : List Line) : List Line := lines.map fun l ↦ (l.1 + 1, l.2)

/-- Lines between braces, of which `head` has the first. -/
def braced (head : String) (lines : List Line) : List Line :=
  (0, head) :: (deeper lines ++ [(0, "\x7d")])

/-! ## Statements -/

section Lines

variable (s : Scope)

/-- The line of `let` and `var`. -/
def letLine (keyword name : String) (ty : TypeNode) : Option Expr → String
  | some init => keyword ++ genBinding name ty init s
  | none => keyword ++ name ++ ": " ++ genType ty ++ ";"

/-- The line of `const`. -/
def constLine (name : String) (ty : TypeNode) (init : Option Expr) : String :=
  let init := (init.map (genExpr s)).getD ""
  if ty.isInfer then "let " ++ name ++ ": _ = " ++ init ++ ";"
  else "const " ++ name ++ ": " ++ genType ty ++ " = " ++ init ++ ";"

/-- The line of an assignment. -/
def assignLine (target : Expr) (op : AssignOp) (value : Expr) : String :=
  genExpr s target ++ " " ++ op.text ++ " " ++ genExpr s value ++ ";"

/-- The line of `return`. -/
def returnLine : Option Expr → String
  | some value => "return " ++ genExpr s value ++ ";"
  | none => "return;"

/-- The case that a `match` without one for everything else is given. -/
def defaultLines (cases : List MatchCase) : List Line :=
  if cases.any fun c ↦ c.pattern = "_" then [] else [(0, "_ => \x7b\x7d")]

mutual

/-- The lines of a statement. -/
def stmtLines : Stmt → List Line
  | .letStmt name ty init => [(0, letLine s "let " name ty init)]
  | .constStmt name ty init => [(0, constLine s name ty init)]
  | .varStmt name ty init => [(0, letLine s "let mut " name ty init)]
  | .assignStmt target op value => [(0, assignLine s target op value)]
  | .returnStmt value => [(0, returnLine s value)]
  | .ifStmt cond thenBody els =>
    (0, "if " ++ genExpr s cond ++ " \x7b")
      :: (deeper (stmtsLines thenBody) ++ (elseLines els ++ [(0, "\x7d")]))
  | .forStmt var iter body => braced (forHead var iter s) (stmtsLines body)
  | .matchStmt expr cases =>
    braced ("match " ++ genExpr s expr ++ " \x7b") (casesLines cases ++ defaultLines cases)
  | .printStmt args => [(0, printlnText args (genExprs s args) ++ ";")]
  | .unsafeStmt body => braced "unsafe \x7b" (stmtsLines body)
  | .exprStmt expr => [(0, genExpr s expr ++ ";")]

/-- The lines of all together. -/
def stmtsLines : List Stmt → List Line
  | [] => []
  | st :: l => stmtLines st ++ stmtsLines l

/-- The lines of the other branch of an `if`. -/
def elseLines : Option (List Stmt) → List Line
  | none => []
  | some els => (0, "\x7d else \x7b") :: deeper (stmtsLines els)

/-- The lines of the cases of a `match`. -/
def casesLines : List MatchCase → List Line
  | [] => []
  | c :: l => caseLines c ++ casesLines l

/-- The lines of one case. -/
def caseLines : MatchCase → List Line
  | .mk pattern bindings body =>
    braced (formatCase pattern bindings ++ " => \x7b") (stmtsLines body)

end

end Lines

theorem layout_append (i : ℕ) (k l : List Line) : layout i (k ++ l) = layout i k ++ layout i l := by
  induction k with
  | nil => exact String.empty_append.symm
  | cons a k ih =>
    have hcons : ∀ m, layout i (a :: m) = lineText (i + a.1) a.2 ++ layout i m :=
      fun m ↦ String.join_cons
    rw [List.cons_append, hcons, hcons, ih, String.append_assoc]

theorem layout_singleton (i j : ℕ) (line : String) :
    layout i [(j, line)] = lineText (i + j) line := by
  rw [layout, List.map_singleton, String.join_cons, String.join_nil, String.append_empty]

theorem layout_deeper (i : ℕ) (lines : List Line) :
    layout i (deeper lines) = layout (i + 1) lines := by
  rw [layout, deeper, List.map_map, layout]
  congr 2
  funext l
  have hdepth : i + (l.1 + 1) = i + 1 + l.1 := by omega
  exact congrArg (lineText · l.2) hdepth

/-- In the scope `s`, `p` writes these lines wherever it is called. -/
def Prints (p : Gen Unit) (s : Scope) (lines : List Line) : Prop :=
  ∀ i, Writes p i s (layout i lines) i s

variable {p q : Gen Unit} {s : Scope} {k l : List Line}

namespace Prints

theorem pure : Prints (Pure.pure ()) s [] := fun i ↦ .pure i s

theorem emit (line : String) : Prints (Agex.emit line) s [(0, line)] := fun i ↦ by
  rw [layout_singleton]
  exact .emit i s line

theorem emitIn (line : Scope → String) : Prints (Agex.emitIn line) s [(0, line s)] := fun i ↦ by
  rw [layout_singleton]
  exact .emitIn i s line

theorem seq (hp : Prints p s k) (hq : Prints q s l) : Prints (p >>= fun _ ↦ q) s (k ++ l) :=
  fun i ↦ by
    rw [layout_append]
    exact (hp i).seq (hq i)

theorem indented (hp : Prints p s l) : Prints (Agex.indented p) s (deeper l) := fun i ↦ by
  rw [layout_deeper, ← String.empty_append (s := layout (i + 1) l),
    ← String.append_empty (s := layout (i + 1) l)]
  exact (Writes.moreIndent i s).seq ((hp (i + 1)).seq (.lessIndent i s))

theorem close : Prints Agex.close s [(0, "\x7d")] := emit _

theorem braced {head : Gen Unit} {line : String} (hhead : Prints head s [(0, line)])
    (hp : Prints p s l) : Prints (do
      head
      Agex.indented p
      Agex.close) s (braced line l) :=
  hhead.seq (hp.indented.seq close)

theorem each {α : Type} {f : α → Gen Unit} {g : α → List Line} {l : List α}
    (h : ∀ a ∈ l, Prints (f a) s (g a)) : Prints (Agex.each f l) s (l.flatMap g) := by
  induction l with
  | nil => exact pure
  | cons a l ih =>
    obtain ⟨ha, hl⟩ := List.forall_mem_cons.mp h
    exact ha.seq (ih hl)

end Prints

theorem genLet_prints (keyword name : String) (ty : TypeNode) (init : Option Expr) :
    Prints (genLet keyword name ty init) s [(0, letLine s keyword name ty init)] := by
  cases init with
  | some init =>
    rw [genLet, letLine]
    exact .emitIn fun s ↦ keyword ++ genBinding name ty init s
  | none =>
    rw [genLet, letLine]
    exact .emit _

mutual

/-- **Statements.** -/
theorem genStmt_prints (s : Scope) : (st : Stmt) → Prints (genStmt st) s (stmtLines s st)
  | .letStmt name ty init => by
    rw [genStmt, stmtLines]
    exact genLet_prints "let " name ty init
  | .constStmt name ty init => by
    rw [genStmt, stmtLines]
    exact .emitIn _
  | .varStmt name ty init => by
    rw [genStmt, stmtLines]
    exact genLet_prints "let mut " name ty init
  | .assignStmt target op value => by
    rw [genStmt, stmtLines]
    exact .emitIn _
  | .returnStmt (some value) => by
    rw [genStmt, stmtLines]
    exact .emitIn _
  | .returnStmt none => by
    rw [genStmt, stmtLines]
    exact .emit _
  | .ifStmt cond thenBody els => by
    have hcond : Prints (emitIn fun s ↦ "if " ++ genExpr s cond ++ " \x7b") s _ := .emitIn _
    rw [genStmt, stmtLines]
    exact hcond.seq ((genStmts_prints s thenBody).indented.seq ((genElse_prints s els).seq .close))
  | .forStmt var iter body => by
    rw [genStmt, stmtLines]
    exact .braced (.emitIn _) (genStmts_prints s body)
  | .matchStmt expr cases => by
    have hdefault : Prints (if cases.any fun c ↦ c.pattern = "_" then pure ()
        else emit "_ => \x7b\x7d") s (defaultLines cases) := by
      rw [defaultLines]
      split_ifs
      · exact .pure
      · exact .emit _
    have hexpr : Prints (emitIn fun s ↦ "match " ++ genExpr s expr ++ " \x7b") s _ := .emitIn _
    rw [genStmt, stmtLines]
    exact .braced hexpr ((genCases_prints s cases).seq hdefault)
  | .printStmt args => by
    rw [genStmt, stmtLines]
    exact .emitIn _
  | .unsafeStmt body => by
    rw [genStmt, stmtLines]
    exact .braced (.emit _) (genStmts_prints s body)
  | .exprStmt expr => by
    rw [genStmt, stmtLines]
    exact .emitIn _

theorem genStmts_prints (s : Scope) : (l : List Stmt) → Prints (genStmts l) s (stmtsLines s l)
  | [] => .pure
  | st :: l => (genStmt_prints s st).seq (genStmts_prints s l)

theorem genElse_prints (s : Scope) :
    (els : Option (List Stmt)) → Prints (genElse els) s (elseLines s els)
  | none => .pure
  | some els => (Prints.emit _).seq (genStmts_prints s els).indented

theorem genCases_prints (s : Scope) :
    (cases : List MatchCase) → Prints (genCases cases) s (casesLines s cases)
  | [] => .pure
  | c :: l => (genCase_prints s c).seq (genCases_prints s l)

theorem genCase_prints (s : Scope) : (c : MatchCase) → Prints (genCase c) s (caseLines s c)
  | .mk _ _ body => .braced (.emit _) (genStmts_prints s body)

end

/-! ## Functions -/

/-- The receiver of a method. -/
def selfParam (f : FnDecl) : String := if methodNeedsMut f then "&mut self" else "&self"

/-- The line that opens a method, with its receiver. -/
def methodHead (f : FnDecl) (receiver : String) : String :=
  qualifier f ++ "pub fn " ++ f.name ++ "(" ++ withReceiver receiver f ++ ")"
    ++ genReturn f.returnType ++ " \x7b"

/-- The line that opens a function. -/
def fnHead (f : FnDecl) : String :=
  qualifier f ++ "pub fn " ++ f.name ++ "(" ++ genParams f.params false ++ ")"
    ++ genReturn f.returnType ++ " \x7b"

/-- The line that opens an extension function, in its `impl`. -/
def extensionHead (f : FnDecl) : String :=
  "pub fn " ++ f.name ++ "("
    ++ (if f.params.isEmpty then "self: Self" else withReceiver "self: &Self" f) ++ ")"
    ++ genReturn f.returnType ++ " \x7b"

section Declarations

variable (L : List SealedClass)

/-- The line of the expression that a function returns. -/
def exprBodyLines (s : Scope) : Option Expr → List Line
  | some expr => [(0, genExpr s expr)]
  | none => []

/-- The lines of the statements of a function. -/
def stmtBodyLines (s : Scope) : Option (List Stmt) → List Line
  | some body => stmtsLines s body
  | none => []

/-- The lines between the braces of a function. -/
def bodyLines (s : Scope) (f : FnDecl) : List Line :=
  exprBodyLines s f.exprBody ++ stmtBodyLines s f.body

/-- The fields that are in scope in the body of a function. -/
def bodyFields (f : FnDecl) (isMethod : Bool) (fields : List String) : List String :=
  if f.receiver.isNone && isMethod then fields else []

/-- The lines of a function. -/
def fnLines (f : FnDecl) (isMethod : Bool) (fields : List String) : List Line :=
  let body := bodyLines ⟨bodyFields f isMethod fields, L⟩ f
  match f.receiver with
  | some recv => braced ("impl " ++ recv ++ " \x7b") (braced (extensionHead f) body)
  | none => braced (if isMethod then methodHead f (selfParam f) else fnHead f) body

end Declarations

theorem genBody_prints (s : Scope) (f : FnDecl) : Prints (genBody f) s (bodyLines s f) := by
  have hexpr : Prints (genExprBody f.exprBody) s (exprBodyLines s f.exprBody) := by
    cases f.exprBody with
    | none => exact .pure
    | some expr =>
      rw [genExprBody, exprBodyLines]
      exact .emitIn fun s ↦ genExpr s expr
  have hbody : Prints (genStmtBody f.body) s (stmtBodyLines s f.body) := by
    cases f.body with
    | none => exact .pure
    | some body => exact genStmts_prints s body
  exact hexpr.seq hbody

variable {L : List SealedClass} {i : ℕ} {s' s'' : Scope} {text : String}

theorem Writes.silent_seq (hp : Writes p i s "" i s') (hq : Writes q i s' text i s'') :
    Writes (p >>= fun _ ↦ q) i s text i s'' := by
  have h := hp.seq hq
  rwa [String.empty_append] at h

theorem Writes.seq_silent (hp : Writes p i s text i s') (hq : Writes q i s' "" i s'') :
    Writes (p >>= fun _ ↦ q) i s text i s'' := by
  have h := hp.seq hq
  rwa [String.append_empty] at h

/-- **Functions.** -/
theorem genFnInner_prints (f : FnDecl) (isMethod : Bool) (fields : List String) :
    Prints (genFnInner f isMethod fields) ⟨[], L⟩ (fnLines L f isMethod fields) := by
  have hbody : ∀ {g : List String}, Prints (genBody f) ⟨g, L⟩ (bodyLines ⟨g, L⟩ f) :=
    genBody_prints _ f
  have hlast : ∀ {g : List String} (i : ℕ), isMethod = true ∨ g = [] →
      Writes (if isMethod then setFields [] else pure ()) i ⟨g, L⟩ "" i ⟨[], L⟩ := by
    intro g i hg
    split_ifs with hmethod
    · exact .setFields i _ []
    · obtain rfl := hg.resolve_left hmethod
      exact .pure i _
  intro i
  rw [fnLines, bodyFields]
  cases hrecv : f.receiver with
  | some recv =>
    -- a block in a block
    have hblock := (Prints.braced (.emit ("impl " ++ recv ++ " \x7b"))
      (.braced (.emit (extensionHead f)) (hbody (g := [])))) i
    have hrun := hblock.seq_silent (hlast i (.inr rfl))
    simp only [genFnInner, genFnHead, genFnTail, hrecv, indented, bind_assoc, extensionHead,
      Option.isSome_some, Option.isNone_some, Bool.false_and, Bool.false_eq_true, if_true,
      if_false] at hrun ⊢
    exact hrun
  | none =>
    cases isMethod with
    | true =>
      have hopen := (Prints.emit (s := ⟨[], L⟩) (methodHead f (selfParam f)) i).seq_silent
        (.setFields i _ fields)
      have hrest := (hbody (g := fields)).indented.seq Prints.close
      have hrun := hopen.seq ((hrest i).seq_silent (hlast i (.inl rfl)))
      rw [← layout_append] at hrun
      simp only [genFnInner, genFnHead, genFnTail, hrecv, bind_assoc, methodHead, selfParam,
        Option.isSome_none, Option.isNone_none, Bool.true_and, Bool.false_eq_true, if_true,
        if_false, pure_bind] at hrun ⊢
      exact hrun
    | false =>
      have hblock := (Prints.braced (.emit (fnHead f)) (hbody (g := []))) i
      have hrun := hblock.seq_silent (hlast i (.inr rfl))
      simp only [genFnInner, genFnHead, genFnTail, hrecv, bind_assoc, fnHead, Option.isSome_none,
        Option.isNone_none, Bool.true_and, Bool.false_eq_true, if_false, pure_bind] at hrun ⊢
      exact hrun

/-! ## Declarations -/

section Declarations

/-- The lines of foreign functions. -/
def externLines (e : ExternDecl) : List Line :=
  braced ("extern \"" ++ e.abi ++ "\" \x7b")
    (e.fns.flatMap fun f ↦ [(0, genSignature f.name f.params f.returnType ++ ";")])

/-- The lines of `impl std::fmt::Display`. -/
def displayLines (name : String) (body : List Line) : List Line :=
  braced ("impl std::fmt::Display for " ++ name ++ " \x7b")
    (braced "fn fmt(&self, f: &mut std::fmt::Formatter<'_>) -> std::fmt::Result \x7b" body)

/-- The line of a variant of a sealed class. -/
def variantLine : ClassDecl → String
  | .mk name _ _ params _ _ _ => name ++ " \x7b " ++ genTypedParams params ++ " \x7d,"

/-- The line of the case of a variant in `fmt`. -/
def variantDisplayLine (className : String) : ClassDecl → String
  | .mk name _ _ params _ _ _ =>
    let names := join ", " (params.map Param.name)
    let parts := join ", " (params.map fun p ↦ "$\x7b" ++ p.name ++ "\x7d")
    className ++ "::" ++ name ++ " \x7b " ++ names ++ " \x7d => write!(f, \"" ++ name
      ++ "(\" + " ++ parts ++ ".to_string() + \")\"),"

/-- The lines of a sealed class. -/
def sealedLines (name : String) (subclasses : List ClassDecl) : List Line :=
  braced ("pub enum " ++ name ++ " \x7b") (subclasses.flatMap fun c ↦ [(0, variantLine c)])
    ++ displayLines name (braced "match self \x7b"
      (subclasses.flatMap fun c ↦ [(0, variantDisplayLine name c)]))

/-- The lines of the struct of a class, and of its `impl`. -/
def structLines (name : String) (params : List Param) (rest : List Line) : List Line :=
  braced ("pub struct " ++ name ++ " \x7b")
      (params.flatMap fun p ↦ [(0, "pub " ++ genTyped p ++ ",")])
    ++ braced ("impl " ++ name ++ " \x7b")
      (braced ("pub fn new(" ++ genTypedParams params ++ ") -> Self \x7b")
        [(0, "Self \x7b " ++ join ", " (params.map Param.name) ++ " \x7d")] ++ rest)

/-- The line of an accessor of a data class. -/
def componentLine (p : Param × ℕ) : String :=
  "pub fn component_" ++ toString (p.2 + 1) ++ "(&self) -> &" ++ genType p.1.ty ++ " \x7b &self."
    ++ p.1.name ++ " \x7d"

/-- The line of `fmt` of a data class. -/
def dataDisplayLine (name : String) (params : List Param) : String :=
  let parts := join ", " (params.map fun p ↦ "$\x7bself." ++ p.name ++ "\x7d")
  "write!(f, \"" ++ name ++ "(\" + \"" ++ parts ++ "\".to_string() + \")\")"

variable (L : List SealedClass)

/-- The lines of the members of a class. -/
def memberLines (params : List Param) (members : List FnDecl) : List Line :=
  members.flatMap fun m ↦ fnLines L m true (params.map Param.name)

/-- The lines of a class. -/
def classLines : ClassDecl → List Line
  | .mk name isData isSealed params _ members subclasses =>
    if isSealed && !subclasses.isEmpty then sealedLines name subclasses
    else if isData then
      (0, "#[derive(Debug, Clone, PartialEq)]")
        :: (structLines name params
          (params.zipIdx.flatMap (fun p ↦ [(0, componentLine p)]) ++ memberLines L params members)
          ++ displayLines name [(0, dataDisplayLine name params)])
    else structLines name params (memberLines L params members)

/-- The lines of a method of an interface. -/
def interfaceMethodLines (m : FnDecl) : List Line :=
  let signature := genSignature m.name m.params m.returnType
  if m.body.isSome || m.exprBody.isSome then braced (signature ++ " \x7b") (bodyLines ⟨[], L⟩ m)
  else [(0, signature ++ ";")]

/-- The lines of an interface. -/
def interfaceLines (i : InterfaceDecl) : List Line :=
  braced ("pub trait " ++ i.name ++ " \x7b") (i.methods.flatMap (interfaceMethodLines L))

/-- The lines of an object. -/
def objectLines (o : ObjectDecl) : List Line :=
  (0, "pub struct " ++ o.name ++ ";")
    :: braced ("impl " ++ o.name ++ " \x7b")
      (braced ("pub fn instance() -> &'static " ++ o.name ++ " \x7b")
        [(0, "use std::sync::OnceLock;"),
          (0, "static INSTANCE: OnceLock<" ++ o.name ++ "> = OnceLock::new();"),
          (0, "INSTANCE.get_or_init(|| " ++ o.name ++ ")")]
        ++ o.members.flatMap fun m ↦
          braced ("pub " ++ genSignature m.name m.params m.returnType ++ " \x7b")
            (bodyLines ⟨[], L⟩ m))

/-- The lines of a driver. -/
def driverLines (v : DriverDecl) : List Line :=
  (0, "pub struct " ++ v.name ++ ";")
    :: braced ("impl " ++ v.implements ++ " for " ++ v.name ++ " \x7b")
      (v.members.flatMap fun m ↦
        braced (genSignature m.name m.params m.returnType ++ " \x7b")
          (bodyLines ⟨[], L⟩ m ++ if m.body.isSome then [] else [(0, "// hardware setup")]))

/-- The lines of an import. -/
def importLines (i : ImportDecl) : List Line :=
  (0, "// import " ++ i.module)
    :: if i.module = "graphics" ∨ i.module = "network" ∨ i.module = "filesystem" then
        [(0, "mod " ++ i.module ++ ";")]
      else []

/-- The lines of a declaration, where the sealed classes `L` are known. -/
def declLines : Decl → List Line
  | .importDecl i => importLines i
  | .externDecl e => externLines e
  | .fn f => fnLines L f false []
  | .classDecl c => classLines L c
  | .interface i => interfaceLines L i
  | .object o => objectLines L o
  | .driver v => driverLines L v
  | .stmt _ => []

end Declarations

theorem each_emit_prints {α : Type} {f : α → String} (l : List α) :
    Prints (each (fun a ↦ emit (f a)) l) s (l.flatMap fun a ↦ [(0, f a)]) :=
  .each fun a _ ↦ .emit (f a)

theorem genExtern_prints (e : ExternDecl) : Prints (genExtern e) s (externLines e) :=
  .braced (.emit _) (each_emit_prints e.fns)

theorem genDisplay_prints (name : String) {body : Gen Unit} (h : Prints body s l) :
    Prints (genDisplay name body) s (displayLines name l) :=
  .braced (.emit _) (.braced (.emit _) h)

theorem genStruct_prints (name : String) (params : List Param) {rest : Gen Unit}
    (h : Prints rest s l) : Prints (genStruct name params rest) s (structLines name params l) := by
  have hfields : Prints (each (fun p ↦ emit ("pub " ++ genTyped p ++ ",")) params) s
      (params.flatMap fun p ↦ [(0, "pub " ++ genTyped p ++ ",")]) := each_emit_prints params
  have hnew := Prints.braced (s := s) (.emit ("pub fn new(" ++ genTypedParams params
    ++ ") -> Self \x7b")) (.emit ("Self \x7b " ++ join ", " (params.map Param.name) ++ " \x7d"))
  have hrun := (Prints.braced (.emit ("pub struct " ++ name ++ " \x7b")) hfields).seq
    (.braced (.emit ("impl " ++ name ++ " \x7b")) (hnew.seq h))
  simp only [genStruct, bind_assoc] at hrun ⊢
  exact hrun

theorem genMembers_prints (params : List Param) (members : List FnDecl) :
    Prints (genMembers params members) ⟨[], L⟩ (memberLines L params members) :=
  .each fun m _ ↦ genFnInner_prints m true _

theorem genInterface_prints (i : InterfaceDecl) :
    Prints (genInterface i) ⟨[], L⟩ (interfaceLines L i) := by
  refine .braced (.emit _) (.each fun m _ ↦ ?_)
  rw [interfaceMethodLines]
  split_ifs
  · exact .braced (.emit _) (genBody_prints _ m)
  · exact .emit _

theorem genObject_prints (o : ObjectDecl) :
    Prints (genObject o) ⟨[], L⟩ (objectLines L o) := by
  have hinstance := Prints.braced (s := ⟨[], L⟩)
    (.emit ("pub fn instance() -> &'static " ++ o.name ++ " \x7b"))
    ((Prints.emit "use std::sync::OnceLock;").seq
      ((Prints.emit ("static INSTANCE: OnceLock<" ++ o.name ++ "> = OnceLock::new();")).seq
        (.emit ("INSTANCE.get_or_init(|| " ++ o.name ++ ")"))))
  have hmembers := Prints.each (s := ⟨[], L⟩) (l := o.members) fun m _ ↦
    Prints.braced (.emit ("pub " ++ genSignature m.name m.params m.returnType ++ " \x7b"))
      (genBody_prints ⟨[], L⟩ m)
  have hrun := (Prints.emit (s := ⟨[], L⟩) ("pub struct " ++ o.name ++ ";")).seq
    (.braced (.emit ("impl " ++ o.name ++ " \x7b")) (hinstance.seq hmembers))
  simp only [genObject, bind_assoc] at hrun ⊢
  exact hrun

theorem genDriver_prints (v : DriverDecl) :
    Prints (genDriver v) ⟨[], L⟩ (driverLines L v) := by
  refine (Prints.emit _).seq (.braced (.emit _) (.each fun m _ ↦ .braced (.emit _) ?_))
  refine (genBody_prints _ m).seq ?_
  split_ifs
  · exact .pure
  · exact .emit _

theorem genImport_prints (i : ImportDecl) : Prints (genImport i) s (importLines i) := by
  have hmod : Prints (if i.module = "graphics" ∨ i.module = "network" ∨ i.module = "filesystem"
      then emit ("mod " ++ i.module ++ ";") else pure ()) s
      (if i.module = "graphics" ∨ i.module = "network" ∨ i.module = "filesystem"
        then [(0, "mod " ++ i.module ++ ";")] else []) := by
    split_ifs
    · exact .emit _
    · exact .pure
  exact (Prints.emit _).seq hmod

/-- A sealed class is registered before it is written. -/
theorem genSealed_writes (name : String) (subclasses : List ClassDecl) (i : ℕ) :
    Writes (genSealed name subclasses) i ⟨[], L⟩ (layout i (sealedLines name subclasses)) i
      ⟨[], L ++ [sealedClass name subclasses]⟩ := by
  have hvariants : ∀ {s}, Prints (each genVariant subclasses) s
      (subclasses.flatMap fun c ↦ [(0, variantLine c)]) :=
    .each fun c _ ↦ by cases c; exact .emit _
  have hcases : ∀ {s}, Prints (each (genVariantDisplay name) subclasses) s
      (subclasses.flatMap fun c ↦ [(0, variantDisplayLine name c)]) :=
    .each fun c _ ↦ by cases c; exact .emit _
  have hdisplay : ∀ {s}, Prints (genDisplay name (do
      emit "match self \x7b"
      indented (each (genVariantDisplay name) subclasses)
      close)) s _ := genDisplay_prints name (.braced (.emit "match self \x7b") hcases)
  have henum : ∀ {s}, Prints (do
      emit ("pub enum " ++ name ++ " \x7b")
      indented (each genVariant subclasses)
      close) s _ := .braced (.emit ("pub enum " ++ name ++ " \x7b")) hvariants
  have hrun := (Writes.registerSealed i ⟨[], L⟩ (sealedClass name subclasses)).silent_seq
    ((henum.seq hdisplay) i)
  simp only [genSealed, bind_assoc] at hrun ⊢
  exact hrun

theorem genClass_writes (c : ClassDecl) (i : ℕ) :
    Writes (genClass c) i ⟨[], L⟩ (layout i (classLines L c)) i
      ⟨[], L ++ registered (.classDecl c)⟩ := by
  obtain ⟨name, isData, isSealed, params, bases, members, subclasses⟩ := c
  rw [genClass, classLines, registered]
  split_ifs
  · exact genSealed_writes name subclasses i
  · rw [List.append_nil]
    have hcomponents : Prints (genComponents params) ⟨[], L⟩
        (params.zipIdx.flatMap fun p ↦ [(0, componentLine p)]) := each_emit_prints _
    have hstruct := genStruct_prints name params
      (hcomponents.seq (genMembers_prints params members))
    have hdisplay := genDisplay_prints (s := ⟨[], L⟩) name
      (.emit (dataDisplayLine name params))
    exact (Prints.emit _).seq (hstruct.seq hdisplay) i
  · rw [List.append_nil]
    exact genStruct_prints name params (genMembers_prints params members) i

/-- **Declarations.** -/
theorem genDecl_writes (d : Decl) (i : ℕ) :
    Writes (genDecl d) i ⟨[], L⟩ (layout i (declLines L d)) i ⟨[], L ++ registered d⟩ := by
  have hsame : ∀ {p : Gen Unit} {l : List Line}, registered d = [] → Prints p ⟨[], L⟩ l →
      Writes p i ⟨[], L⟩ (layout i l) i ⟨[], L ++ registered d⟩ := by
    intro p l hd h
    rw [hd, List.append_nil]
    exact h i
  cases d with
  | fn f => exact hsame rfl (genFnInner_prints f false [])
  | classDecl c => exact genClass_writes c i
  | interface m => exact hsame rfl (genInterface_prints m)
  | object o => exact hsame rfl (genObject_prints o)
  | driver v => exact hsame rfl (genDriver_prints v)
  | stmt s => exact hsame rfl .pure
  | externDecl e => exact hsame rfl (genExtern_prints e)
  | importDecl m => exact hsame rfl (genImport_prints m)

/-! ## Programs -/

/-- The lines before the items. -/
def headerLines : List Line :=
  [(0, "// Generated from agex source by the agex compiler (agc)"),
    (0, "#![allow(dead_code, unused_variables, unused_imports, unused_mut)]"), (0, ""),
    (0, "use std::prelude::v1::*;"), (0, "")]

/-- The lines of the items, each of them with an empty line behind it. -/
def itemLines (L : List SealedClass) : List Decl → List Line
  | [] => []
  | d :: l => declLines L d ++ [(0, "")] ++ itemLines (L ++ registered d) l

/-- The lines of the function that the top-level statements are collected in. -/
def mainLines (L : List SealedClass) (stmts : List Stmt) : List Line :=
  if stmts.isEmpty then [] else braced "fn main() \x7b" (stmtsLines ⟨[], L⟩ stmts)

/-- The declarations that become items. -/
def Program.items (prog : Program) : List Decl := prog.decls.filter fun d ↦ d.stmt?.isNone

/-- The top-level statements. -/
def Program.topStmts (prog : Program) : List Stmt := prog.decls.filterMap Decl.stmt?

/-- The lines of the output. -/
def programLines (prog : Program) : List Line :=
  headerLines ++ itemLines [] prog.items
    ++ mainLines (prog.items.flatMap registered) prog.topStmts

theorem items_writes (l : List Decl) : Writes (each genItem l) 0 ⟨[], L⟩
    (layout 0 (itemLines L l)) 0 ⟨[], L ++ l.flatMap registered⟩ := by
  induction l generalizing L with
  | nil =>
    rw [List.flatMap_nil, List.append_nil]
    exact .pure 0 _
  | cons d l ih =>
    have hitem : Writes (genItem d) 0 ⟨[], L⟩ (layout 0 (declLines L d ++ [(0, "")])) 0
        ⟨[], L ++ registered d⟩ := by
      rw [layout_append]
      exact (genDecl_writes d 0).seq (Prints.emit "" 0)
    rw [itemLines, layout_append, List.flatMap_cons, ← List.append_assoc]
    exact hitem.seq ih

theorem genMain_prints (stmts : List Stmt) :
    Prints (genMain stmts) ⟨[], L⟩ (mainLines L stmts) := by
  rw [genMain, mainLines]
  split_ifs
  · exact .pure
  · exact .braced (.emit _) (genStmts_prints _ stmts)

theorem genHeader_prints : Prints genHeader s headerLines :=
  (Prints.emit _).seq ((Prints.emit _).seq ((Prints.emit _).seq ((Prints.emit _).seq (.emit _))))

/-- The generator is at the left margin again when it is done. -/
theorem genProgram_eq_layout (prog : Program) :
    genProgram prog Generator.new = some ((),
      ⟨⟨[], prog.items.flatMap registered⟩, layout 0 (programLines prog), 0, []⟩) := by
  have hrest := (items_writes (L := []) prog.items).seq
    (genMain_prints (L := [] ++ prog.items.flatMap registered) prog.topStmts 0)
  have hrun := ((genHeader_prints (s := ⟨[], []⟩) 0).seq hrest) "" []
  rw [← layout_append, ← layout_append, ← List.append_assoc] at hrun
  have hprogram : genProgram prog Generator.new
      = some ((),
        ⟨⟨[], prog.items.flatMap registered⟩, "" ++ layout 0 (programLines prog), 0, []⟩) :=
    hrun
  rw [hprogram, String.empty_append]

/-- **The output** is the lines of the program, and there are no warnings. -/
theorem generate_eq_layout (prog : Program) :
    generate prog = some ⟨layout 0 (programLines prog), []⟩ := by
  rw [generate, genProgram_eq_layout]
  rfl

end Agex

end Zeroxos
