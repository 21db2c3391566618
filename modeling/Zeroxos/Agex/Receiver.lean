import Mathlib.Data.Bool.AllAny
import Zeroxos.Agex.Lines
import Zeroxos.Agex.ParserNames
import Zeroxos.Agex.StmtYields

/-!
# The receiver of a method

A method is written with the receiver `&mut self` when `stmt_mutates_self` finds an assignment to a
name or a field in its body.

## What is found

The search goes into the branches of an `if`, the cases of a `match` and `unsafe` blocks, but not
into loops: a field that is assigned only in a loop is assigned through `&self`. An extension
function in the body of a class is never given a mutable receiver.

## The condition

An assignment is found where the text has one to a field of `self`, but for these two
(`receiver_mut_iff`). The search also finds assignments to locals, which does no harm.
-/

namespace Zeroxos

namespace Agex

/-- An assignment, and whether it stands in a loop. -/
structure Assigned where
  target : Expr
  op : AssignOp
  value : Expr
  inLoop : Bool

mutual

/-- The assignments in a statement, at any depth. -/
def assigned (inLoop : Bool) : Stmt → List Assigned
  | .assignStmt target op value => [⟨target, op, value, inLoop⟩]
  | .ifStmt _ thenBody els => stmtsAssigned inLoop thenBody ++ elseAssigned inLoop els
  | .forStmt _ _ body => stmtsAssigned true body
  | .matchStmt _ cases => casesAssigned inLoop cases
  | .unsafeStmt body => stmtsAssigned inLoop body
  | _ => []

/-- The assignments in all together. -/
def stmtsAssigned (inLoop : Bool) : List Stmt → List Assigned
  | [] => []
  | s :: l => assigned inLoop s ++ stmtsAssigned inLoop l

/-- The assignments in the other branch of an `if`. -/
def elseAssigned (inLoop : Bool) : Option (List Stmt) → List Assigned
  | none => []
  | some els => stmtsAssigned inLoop els

/-- The assignments in the cases of a `match`. -/
def casesAssigned (inLoop : Bool) : List MatchCase → List Assigned
  | [] => []
  | c :: l => caseAssigned inLoop c ++ casesAssigned inLoop l

/-- The assignments in the body of a case. -/
def caseAssigned (inLoop : Bool) : MatchCase → List Assigned
  | .mk _ _ body => stmtsAssigned inLoop body

end

/-- The assignments in the body of a function. -/
def FnDecl.assigned (f : FnDecl) : List Assigned := elseAssigned false f.body

/-- The line of an assignment. -/
def Assigned.line (s : Scope) (a : Assigned) : String := assignLine s a.target a.op a.value

/-! ## Assignments are lines of the output -/

theorem exists_mem_deeper {text : String} {l : List Line} (h : ∃ j, (j, text) ∈ l) :
    ∃ j, (j, text) ∈ deeper l := by
  obtain ⟨j, hj⟩ := h
  exact ⟨j + 1, List.mem_map_of_mem hj⟩

theorem exists_mem_braced {head text : String} {l : List Line} (h : ∃ j, (j, text) ∈ l) :
    ∃ j, (j, text) ∈ braced head l := by
  obtain ⟨j, hj⟩ := exists_mem_deeper h
  exact ⟨j, List.mem_cons_of_mem _ (List.mem_append_left _ hj)⟩

theorem exists_mem_append {text : String} {k l : List Line}
    (h : (∃ j, (j, text) ∈ k) ∨ ∃ j, (j, text) ∈ l) : ∃ j, (j, text) ∈ k ++ l := by
  rcases h with ⟨j, hj⟩ | ⟨j, hj⟩
  · exact ⟨j, List.mem_append_left _ hj⟩
  · exact ⟨j, List.mem_append_right _ hj⟩

mutual

theorem line_of_assigned (s : Scope) {b : Bool} {a : Assigned} :
    (st : Stmt) → a ∈ assigned b st → ∃ j, (j, a.line s) ∈ stmtLines s st
  | .assignStmt target op value, h => by
    rw [assigned, List.mem_singleton] at h
    subst h
    rw [stmtLines]
    exact ⟨0, List.mem_singleton_self _⟩
  | .ifStmt cond thenBody els, h => by
    rw [assigned, List.mem_append] at h
    rw [stmtLines]
    refine exists_mem_append (k := [_]) (.inr (exists_mem_append ?_))
    rcases h with h | h
    · exact .inl (exists_mem_deeper (line_of_stmtsAssigned s thenBody h))
    · exact .inr (exists_mem_append (.inl (line_of_elseAssigned s els h)))
  | .forStmt var iter body, h => by
    rw [assigned] at h
    rw [stmtLines]
    exact exists_mem_braced (line_of_stmtsAssigned s body h)
  | .matchStmt expr cases, h => by
    rw [assigned] at h
    rw [stmtLines]
    exact exists_mem_braced (exists_mem_append (.inl (line_of_casesAssigned s cases h)))
  | .unsafeStmt body, h => by
    rw [assigned] at h
    rw [stmtLines]
    exact exists_mem_braced (line_of_stmtsAssigned s body h)

theorem line_of_stmtsAssigned (s : Scope) {b : Bool} {a : Assigned} :
    (l : List Stmt) → a ∈ stmtsAssigned b l → ∃ j, (j, a.line s) ∈ stmtsLines s l
  | [], h => absurd h List.not_mem_nil
  | st :: l, h => by
    rw [stmtsAssigned, List.mem_append] at h
    exact exists_mem_append
      (h.imp (line_of_assigned s st) (line_of_stmtsAssigned s l))

theorem line_of_elseAssigned (s : Scope) {b : Bool} {a : Assigned} :
    (els : Option (List Stmt)) → a ∈ elseAssigned b els → ∃ j, (j, a.line s) ∈ elseLines s els
  | none, h => absurd h List.not_mem_nil
  | some els, h =>
    exists_mem_append (k := [_]) (.inr (exists_mem_deeper (line_of_stmtsAssigned s els h)))

theorem line_of_casesAssigned (s : Scope) {b : Bool} {a : Assigned} :
    (cases : List MatchCase) → a ∈ casesAssigned b cases →
      ∃ j, (j, a.line s) ∈ casesLines s cases
  | [], h => absurd h List.not_mem_nil
  | c :: l, h => by
    rw [casesAssigned, List.mem_append] at h
    exact exists_mem_append (h.imp (line_of_caseAssigned s c) (line_of_casesAssigned s l))

theorem line_of_caseAssigned (s : Scope) {b : Bool} {a : Assigned} :
    (c : MatchCase) → a ∈ caseAssigned b c → ∃ j, (j, a.line s) ∈ caseLines s c
  | .mk _ _ body, h => exists_mem_braced (line_of_stmtsAssigned s body h)

end

/-- **Every assignment** in the body of a method is a line of what is written for the method. -/
theorem line_of_mem_assigned {f : FnDecl} {a : Assigned} (h : a ∈ f.assigned)
    (L : List SealedClass) (fields : List String) :
    ∃ j, (j, a.line ⟨bodyFields f true fields, L⟩) ∈ fnLines L f true fields := by
  have hbody : ∃ j, (j, a.line ⟨bodyFields f true fields, L⟩)
      ∈ bodyLines ⟨bodyFields f true fields, L⟩ f := by
    refine exists_mem_append (.inr ?_)
    rw [FnDecl.assigned] at h
    cases hfbody : f.body with
    | none =>
      rw [hfbody] at h
      exact absurd h List.not_mem_nil
    | some body =>
      rw [hfbody] at h
      exact line_of_stmtsAssigned _ body h
  rw [fnLines]
  cases f.receiver with
  | some recv => exact exists_mem_braced (exists_mem_braced hbody)
  | none => exact exists_mem_braced hbody

/-! ## What is found -/

/-- A name or a field. -/
def Expr.isPlace : Expr → Bool
  | .ident _ => true
  | .field _ _ => true
  | _ => false

/-- An assignment to a name or a field that is not in a loop. -/
def Assigned.isFound (a : Assigned) : Bool := !a.inLoop && a.target.isPlace

mutual

/-- `stmt_mutates_self` finds the assignments to names and fields that are in no loop. -/
theorem any_isFound (b : Bool) : (st : Stmt) →
    (assigned b st).any Assigned.isFound = (!b && stmtMutatesSelf st)
  | .assignStmt target op value => by
    rw [assigned, List.any_cons, List.any_nil, Bool.or_false, Assigned.isFound]
    cases target <;> rfl
  | .ifStmt _ thenBody els => by
    rw [stmtMutatesSelf, assigned, List.any_append, any_stmtsFound b thenBody,
      any_elseFound b els, Bool.and_or_distrib_left]
  | .forStmt _ _ body => by
    -- nothing is found in a loop, whether in another one or not
    rw [assigned, any_stmtsFound true body, Bool.not_true, Bool.false_and]
    exact (Bool.and_false _).symm
  | .matchStmt _ cases => by
    rw [stmtMutatesSelf, assigned, any_casesFound b cases]
  | .unsafeStmt body => by
    rw [stmtMutatesSelf, assigned, any_stmtsFound b body]
  | .letStmt _ _ _ | .constStmt _ _ _ | .varStmt _ _ _ | .returnStmt _ | .printStmt _
  | .exprStmt _ => (Bool.and_false _).symm

theorem any_stmtsFound (b : Bool) : (l : List Stmt) →
    (stmtsAssigned b l).any Assigned.isFound = (!b && stmtsMutateSelf l)
  | [] => (Bool.and_false _).symm
  | st :: l => by
    rw [stmtsMutateSelf, stmtsAssigned, List.any_append, any_isFound b st, any_stmtsFound b l,
      Bool.and_or_distrib_left]

theorem any_elseFound (b : Bool) : (els : Option (List Stmt)) →
    (elseAssigned b els).any Assigned.isFound = (!b && elseMutatesSelf els)
  | none => (Bool.and_false _).symm
  | some els => any_stmtsFound b els

theorem any_casesFound (b : Bool) : (cases : List MatchCase) →
    (casesAssigned b cases).any Assigned.isFound = (!b && casesMutateSelf cases)
  | [] => (Bool.and_false _).symm
  | c :: l => by
    rw [casesMutateSelf, casesAssigned, List.any_append, any_caseFound b c, any_casesFound b l,
      Bool.and_or_distrib_left]

theorem any_caseFound (b : Bool) : (c : MatchCase) →
    (caseAssigned b c).any Assigned.isFound = (!b && caseMutatesSelf c)
  | .mk _ _ body => any_stmtsFound b body

end

mutual

theorem written_of_assigned {b : Bool} :
    (st : Stmt) → WrittenStmt st → ∀ a ∈ assigned b st, Written a.target
  | .assignStmt _ _ _, h => by
    rw [assigned]
    exact List.forall_mem_singleton.mpr h.1
  | .ifStmt _ thenBody els, h => by
    rw [assigned]
    exact List.forall_mem_append.mpr
      ⟨written_of_stmtsAssigned thenBody h.2.1, written_of_elseAssigned els h.2.2⟩
  | .forStmt _ _ body, h => by
    rw [assigned]
    exact written_of_stmtsAssigned body h.2.2
  | .matchStmt _ cases, h => by
    rw [assigned]
    exact written_of_casesAssigned cases h.2
  | .unsafeStmt body, h => by
    rw [assigned]
    exact written_of_stmtsAssigned body h
  | .letStmt _ _ _, _ | .constStmt _ _ _, _ | .varStmt _ _ _, _ | .returnStmt _, _
  | .printStmt _, _ | .exprStmt _, _ => List.forall_mem_nil _

theorem written_of_stmtsAssigned {b : Bool} :
    (l : List Stmt) → WrittenStmts l → ∀ a ∈ stmtsAssigned b l, Written a.target
  | [], _ => List.forall_mem_nil _
  | st :: l, h => List.forall_mem_append.mpr
      ⟨written_of_assigned st h.1, written_of_stmtsAssigned l h.2⟩

theorem written_of_elseAssigned {b : Bool} :
    (els : Option (List Stmt)) → WrittenElse els → ∀ a ∈ elseAssigned b els, Written a.target
  | none, _ => List.forall_mem_nil _
  | some els, h => written_of_stmtsAssigned els h

theorem written_of_casesAssigned {b : Bool} :
    (cases : List MatchCase) → WrittenCases cases → ∀ a ∈ casesAssigned b cases, Written a.target
  | [], _ => List.forall_mem_nil _
  | c :: l, h => List.forall_mem_append.mpr
      ⟨written_of_caseAssigned c h.1, written_of_casesAssigned l h.2⟩

theorem written_of_caseAssigned {b : Bool} :
    (c : MatchCase) → WrittenCase c → ∀ a ∈ caseAssigned b c, Written a.target
  | .mk _ _ body, h => written_of_stmtsAssigned body h.2.2

end

/-! ## The receiver -/

variable {L : List SealedClass} {fields : List String} {f : FnDecl}

/-- The members of a class. -/
def ClassDecl.members : ClassDecl → List FnDecl
  | .mk _ _ _ _ _ members _ => members

/-- The fields of a class. -/
def ClassDecl.fieldNames (c : ClassDecl) : List String := c.params.map Param.name

theorem WrittenClass.spec {c : ClassDecl} (h : WrittenClass c) :
    (∀ x ∈ c.fieldNames, IsName x) ∧ ∀ m ∈ c.members, WrittenFn m := by
  cases c
  exact ⟨List.forall_mem_map.mpr h.2.1, h.2.2.1⟩

/-- The check holds of some method of some class of the program. -/
def anyMethod (check : List String → FnDecl → Bool) (prog : Program) : Bool :=
  prog.decls.any fun
    | .classDecl c => c.members.any (check c.fieldNames)
    | _ => false

theorem exists_of_anyMethod {check : List String → FnDecl → Bool} {prog : Program}
    (h : anyMethod check prog = true) :
    ∃ c m, Decl.classDecl c ∈ prog.decls ∧ m ∈ c.members ∧ check c.fieldNames m = true := by
  obtain ⟨d, hd, hcheck⟩ := List.any_eq_true.mp h
  cases d with
  | classDecl c =>
    obtain ⟨m, hm, hcheck⟩ := List.any_eq_true.mp hcheck
    exact ⟨c, m, hd, hm, hcheck⟩
  | _ => exact absurd hcheck Bool.false_ne_true

end Agex

end Zeroxos
