import Zeroxos.Agex.SealedCalls

/-!
# What the generator writes

`Writes` is the contract of a function of the generator: the text that it appends, and how it leaves
the indentation and the scope. There is one rule for each construct, and none of them depends on
what was written before.

## Two scopes

`WritesAlike` puts two runs next to each other that differ in the sealed classes they know. Every
function for statements keeps it (`genStmt_steady`): the texts are the same exactly when the calls
on names in the statement are resolved alike. That they part otherwise, and do not become the same
again further on, is why texts are compared as in `Library.Diverge`.
-/

namespace Zeroxos

namespace Agex

/-- From indentation `i` and scope `s` on, `p` appends `text`, and leaves `i'` and `s'`. -/
def Writes (p : Gen Unit) (i : ℕ) (s : Scope) (text : String) (i' : ℕ) (s' : Scope) : Prop :=
  ∀ out warnings, p ⟨s, out, i, warnings⟩ = some ((), ⟨s', out ++ text, i', warnings⟩)

variable {p q : Gen Unit} {i i' i'' : ℕ} {s s' s'' r r' r'' : Scope} {text text' : String}

namespace Writes

theorem pure (i : ℕ) (s : Scope) : Writes (pure ()) i s "" i s := fun out warnings ↦ by
  rw [String.append_empty]
  rfl

theorem seq (hp : Writes p i s text i' s') (hq : Writes q i' s' text' i'' s'') :
    Writes (p >>= fun _ ↦ q) i s (text ++ text') i'' s'' := fun out warnings ↦ by
  have hrun : (p >>= fun _ ↦ q) ⟨s, out, i, warnings⟩
      = (p ⟨s, out, i, warnings⟩).bind fun r ↦ q r.2 := rfl
  rw [hrun, hp, Option.bind_some, hq, String.append_assoc]

theorem emit (i : ℕ) (s : Scope) (line : String) :
    Writes (emit line) i s (lineText i line) i s := fun _ _ ↦ rfl

theorem emitIn (i : ℕ) (s : Scope) (line : Scope → String) :
    Writes (emitIn line) i s (lineText i (line s)) i s := fun _ _ ↦ rfl

theorem silent (h : ∀ out warnings, p ⟨s, out, i, warnings⟩ = some ((), ⟨s', out, i', warnings⟩)) :
    Writes p i s "" i' s' := fun out warnings ↦ by rw [h, String.append_empty]

theorem moreIndent (i : ℕ) (s : Scope) : Writes moreIndent i s "" (i + 1) s :=
  silent fun _ _ ↦ rfl

theorem lessIndent (i : ℕ) (s : Scope) : Writes lessIndent (i + 1) s "" i s :=
  silent fun _ _ ↦ rfl

theorem setFields (i : ℕ) (s : Scope) (fields : List String) :
    Writes (setFields fields) i s "" i ⟨fields, s.sealedClasses⟩ := silent fun _ _ ↦ rfl

theorem registerSealed (i : ℕ) (s : Scope) (c : SealedClass) :
    Writes (registerSealed c) i s "" i ⟨s.inMethodFields, s.sealedClasses ++ [c]⟩ :=
  silent fun _ _ ↦ rfl

theorem unique (h : Writes p i s text i' s') (h' : Writes p i s text' i'' s'') : text = text' := by
  have hrun := h' "" []
  have heq := hrun.symm.trans (h "" [])
  simp only [Option.some.injEq, Prod.mk.injEq, true_and, Generator.mk.injEq] at heq
  simpa only [String.empty_append] using heq.2.1.symm

end Writes

/-! ## Two runs -/

/-- Run from `s` and from `r`, `p` writes the same if `P`, and texts that part if not. -/
def WritesAlike (P : Prop) (p : Gen Unit) (i : ℕ) (s r : Scope) (i' : ℕ) (s' r' : Scope) : Prop :=
  ∃ t u, Writes p i s t i' s' ∧ Writes p i r u i' r' ∧ Alike P t u

variable {P Q : Prop}

namespace WritesAlike

theorem congr (h : WritesAlike P p i s r i' s' r') (hPQ : P ↔ Q) :
    WritesAlike Q p i s r i' s' r' := by
  obtain ⟨t, u, ht, hu, halike⟩ := h
  exact ⟨t, u, ht, hu, halike.congr hPQ⟩

theorem seq (hp : WritesAlike P p i s r i' s' r') (hq : WritesAlike Q q i' s' r' i'' s'' r'') :
    WritesAlike (P ∧ Q) (p >>= fun _ ↦ q) i s r i'' s'' r'' := by
  obtain ⟨t, u, ht, hu, halike⟩ := hp
  obtain ⟨t', u', ht', hu', halike'⟩ := hq
  exact ⟨_, _, ht.seq ht', hu.seq hu', halike.append halike'⟩

theorem after (hp : WritesAlike True p i s r i' s' r')
    (hq : WritesAlike Q q i' s' r' i'' s'' r'') :
    WritesAlike Q (p >>= fun _ ↦ q) i s r i'' s'' r'' :=
  (hp.seq hq).congr (iff_of_eq (true_and Q))

theorem before (hp : WritesAlike P p i s r i' s' r')
    (hq : WritesAlike True q i' s' r' i'' s'' r'') :
    WritesAlike P (p >>= fun _ ↦ q) i s r i'' s'' r'' :=
  (hp.seq hq).congr (iff_of_eq (and_true P))

theorem of_writes (hs : Writes p i s text i' s') (hr : Writes p i r text i' r') :
    WritesAlike True p i s r i' s' r' := ⟨text, text, hs, hr, .same text trivial⟩

end WritesAlike

/-- Run with the sealed classes `L` and `L'`, and anything else the same, `p` writes the same if
`P`, and leaves the indentation and the scope as they were. -/
def Steady (fields : List String) (L L' : List SealedClass) (P : Prop) (p : Gen Unit) : Prop :=
  ∀ i, WritesAlike P p i ⟨fields, L⟩ ⟨fields, L'⟩ i ⟨fields, L⟩ ⟨fields, L'⟩

variable {fields : List String} {L L' : List SealedClass}

namespace Steady

theorem congr (h : Steady fields L L' P p) (hPQ : P ↔ Q) : Steady fields L L' Q p :=
  fun i ↦ (h i).congr hPQ

theorem pure : Steady fields L L' True (pure ()) := fun i ↦
  .of_writes (.pure i _) (.pure i _)

theorem seq (hp : Steady fields L L' P p) (hq : Steady fields L L' Q q) :
    Steady fields L L' (P ∧ Q) (p >>= fun _ ↦ q) := fun i ↦ (hp i).seq (hq i)

theorem after (hp : Steady fields L L' True p) (hq : Steady fields L L' Q q) :
    Steady fields L L' Q (p >>= fun _ ↦ q) := fun i ↦ (hp i).after (hq i)

theorem before (hp : Steady fields L L' P p) (hq : Steady fields L L' True q) :
    Steady fields L L' P (p >>= fun _ ↦ q) := fun i ↦ (hp i).before (hq i)

theorem emit (line : String) : Steady fields L L' True (emit line) := fun i ↦
  .of_writes (.emit i _ line) (.emit i _ line)

theorem close : Steady fields L L' True close := emit _

theorem emitIn {line : Scope → String} (h : Alike P (line ⟨fields, L⟩) (line ⟨fields, L'⟩)) :
    Steady fields L L' P (emitIn line) := by
  refine fun i ↦ ⟨_, _, .emitIn i _ line, .emitIn i _ line, ?_⟩
  rcases h with ⟨hP, heq⟩ | ⟨hP, hdiv⟩
  · rw [heq]
    exact .same _ hP
  · -- texts that part are not empty
    have hne : ∀ {t : String}, t.toList ≠ [] → ¬t.isEmpty := fun ht hempty ↦
      ht (by rw [String.isEmpty_iff.mp hempty]; rfl)
    rw [lineText, lineText, if_neg (hne hdiv.ne_nil.1), if_neg (hne hdiv.ne_nil.2)]
    exact ((Alike.of_diverge hP hdiv).same_append _).append_same _

theorem indented (h : Steady fields L L' P p) : Steady fields L L' P (indented p) := fun i ↦
  WritesAlike.after (.of_writes (.moreIndent i _) (.moreIndent i _))
    ((h (i + 1)).before (.of_writes (.lessIndent i _) (.lessIndent i _)))

theorem each {α : Type} {f : α → Gen Unit} {P : α → Prop} {l : List α}
    (h : ∀ a ∈ l, Steady fields L L' (P a) (f a)) :
    Steady fields L L' (∀ a ∈ l, P a) (each f l) := by
  induction l with
  | nil => exact pure.congr (iff_of_true trivial fun _ ha ↦ nomatch ha)
  | cons a l ih =>
    obtain ⟨ha, hl⟩ := List.forall_mem_cons.mp h
    exact (ha.seq (ih hl)).congr List.forall_mem_cons.symm

end Steady

/-! ## Statements -/

/-- The calls on names in an expression that may be missing. -/
def optCalls (L : List SealedClass) : Option Expr → List NameCall
  | some e => exprCalls L e
  | none => []

mutual

/-- The calls on names in what is written for a statement. -/
def stmtCalls (L : List SealedClass) : Stmt → List NameCall
  | .letStmt _ _ init => optCalls L init
  | .constStmt _ _ init => optCalls L init
  | .varStmt _ _ init => optCalls L init
  | .assignStmt target _ value => exprCalls L target ++ exprCalls L value
  | .returnStmt value => optCalls L value
  | .ifStmt cond thenBody els => exprCalls L cond ++ (stmtsCalls L thenBody ++ elseCalls L els)
  | .forStmt _ iter body => exprCalls L iter ++ stmtsCalls L body
  | .matchStmt expr cases => exprCalls L expr ++ casesCalls L cases
  | .exprStmt expr => exprCalls L expr
  | .printStmt args => (exprsCalls L args).flatten
  | .unsafeStmt body => stmtsCalls L body

/-- The calls of each. -/
def stmtsCalls (L : List SealedClass) : List Stmt → List NameCall
  | [] => []
  | s :: l => stmtCalls L s ++ stmtsCalls L l

/-- The calls of the other branch of an `if`. -/
def elseCalls (L : List SealedClass) : Option (List Stmt) → List NameCall
  | none => []
  | some els => stmtsCalls L els

/-- The calls of the cases of a `match`. -/
def casesCalls (L : List SealedClass) : List MatchCase → List NameCall
  | [] => []
  | c :: l => caseCalls L c ++ casesCalls L l

/-- The calls of one case. -/
def caseCalls (L : List SealedClass) : MatchCase → List NameCall
  | .mk _ _ body => stmtsCalls L body

end

section Steady

variable (hL : PlainFields L) (hL' : PlainFields L')

include hL hL'

theorem genBinding_alike (name : String) (ty : TypeNode) (init : Expr) :
    Alike (Agree L L' (exprCalls L init)) (genBinding name ty init ⟨fields, L⟩)
      (genBinding name ty init ⟨fields, L'⟩) := by
  have h : Alike _ (genExpr ⟨fields, L⟩ init) _ := genExpr_alike hL hL' init
  rw [genBinding, genBinding]
  split_ifs
  · exact (h.same_append _).append_same _
  · exact (h.same_append _).append_same _

theorem genLet_steady (keyword name : String) (ty : TypeNode) (init : Option Expr) :
    Steady fields L L' (Agree L L' (optCalls L init)) (genLet keyword name ty init) := by
  cases init with
  | none => exact (Steady.emit _).congr (iff_of_true trivial agree_nil)
  | some init =>
    rw [genLet, optCalls]
    refine .emitIn ?_
    exact (genBinding_alike hL hL' name ty init).same_append keyword

theorem genConst_steady (name : String) (ty : TypeNode) (init : Option Expr) :
    Steady fields L L' (Agree L L' (optCalls L init)) (genConst name ty init) := by
  have h : Alike (Agree L L' (optCalls L init)) ((init.map (genExpr ⟨fields, L⟩)).getD "")
      ((init.map (genExpr ⟨fields, L'⟩)).getD "") := by
    cases init with
    | none => exact .same _ agree_nil
    | some init => exact genExpr_alike hL hL' init
  refine .emitIn ?_
  dsimp only
  split_ifs
  · exact (h.same_append _).append_same _
  · exact (h.same_append _).append_same _

theorem forHead_alike (var : String) (iter : Expr) :
    Alike (Agree L L' (exprCalls L iter)) (forHead var iter ⟨fields, L⟩)
      (forHead var iter ⟨fields, L'⟩) := by
  rw [forHead, forHead]
  cases hrange : iter.rangeArgs? with
  | none => exact ((genExpr_alike hL hL' iter).same_append _).append_same _
  | some args =>
    cases iter with
    | call callee args' =>
      rw [Expr.rangeArgs?] at hrange
      split_ifs at hrange with hcallee
      obtain rfl := Option.some.inj hrange
      rw [exprCalls, if_pos hcallee]
      exact ((alike_headD (genExprs_alike hL hL' args')).same_append _).append_same _
    | _ => cases hrange

end Steady

mutual

theorem genStmt_steady (hL : PlainFields L) (hL' : PlainFields L') : (s : Stmt) →
    Steady fields L L' (Agree L L' (stmtCalls L s)) (genStmt s)
  | .letStmt name ty init => by
    rw [stmtCalls, genStmt]
    exact genLet_steady hL hL' "let " name ty init
  | .constStmt name ty init => by
    rw [stmtCalls, genStmt]
    exact genConst_steady hL hL' name ty init
  | .varStmt name ty init => by
    rw [stmtCalls, genStmt]
    exact genLet_steady hL hL' "let mut " name ty init
  | .assignStmt target op value => by
    have htarget : Alike _ (genExpr ⟨fields, L⟩ target) _ := genExpr_alike hL hL' target
    have hvalue : Alike _ (genExpr ⟨fields, L⟩ value) _ := genExpr_alike hL hL' value
    rw [stmtCalls, genStmt]
    refine Steady.emitIn (P := Agree L L' (exprCalls L target ++ exprCalls L value)) ?_
    exact (((htarget.append_same _).append_same _).append_same _).append hvalue |>.append_same _
      |>.congr agree_append.symm
  | .returnStmt (some value) => by
    rw [stmtCalls, genStmt, optCalls]
    refine .emitIn ?_
    exact ((genExpr_alike hL hL' value).same_append _).append_same _
  | .returnStmt none => by
    rw [stmtCalls, genStmt, optCalls]
    exact (Steady.emit _).congr (iff_of_true trivial agree_nil)
  | .ifStmt cond thenBody els => by
    have hcond : Steady fields L L' (Agree L L' (exprCalls L cond))
        (emitIn fun s ↦ "if " ++ genExpr s cond ++ " \x7b") :=
      .emitIn (((genExpr_alike hL hL' cond).same_append _).append_same _)
    rw [stmtCalls]
    refine ((hcond.seq ((genStmts_steady hL hL' thenBody).indented.seq
      ((genElse_steady hL hL' els).before .close)))).congr ?_
    rw [agree_append, agree_append]
  | .forStmt var iter body => by
    rw [stmtCalls]
    refine ((Steady.emitIn (forHead_alike hL hL' var iter)).seq
      ((genStmts_steady hL hL' body).indented.before .close)).congr agree_append.symm
  | .matchStmt expr cases => by
    have hexpr : Steady fields L L' (Agree L L' (exprCalls L expr))
        (emitIn fun s ↦ "match " ++ genExpr s expr ++ " \x7b") :=
      .emitIn (((genExpr_alike hL hL' expr).same_append _).append_same _)
    have hdefault : Steady fields L L' True
        (if cases.any fun c ↦ c.pattern = "_" then pure () else emit "_ => \x7b\x7d") := by
      split_ifs
      · exact .pure
      · exact .emit _
    rw [stmtCalls]
    have hcases := ((genCases_steady hL hL' cases).before hdefault).indented
    exact (hexpr.seq (hcases.before .close)).congr agree_append.symm
  | .exprStmt expr => by
    rw [stmtCalls, genStmt]
    refine .emitIn ?_
    exact (genExpr_alike hL hL' expr).append_same _
  | .printStmt args => by
    rw [stmtCalls, genStmt]
    refine .emitIn ?_
    exact (alike_println (genExprs_alike hL hL' args)).append_same _
  | .unsafeStmt body => by
    rw [stmtCalls, genStmt]
    exact (Steady.emit _).after ((genStmts_steady hL hL' body).indented.before .close)

theorem genStmts_steady (hL : PlainFields L) (hL' : PlainFields L') : (l : List Stmt) →
    Steady fields L L' (Agree L L' (stmtsCalls L l)) (genStmts l)
  | [] => Steady.pure.congr (iff_of_true trivial agree_nil)
  | s :: l => ((genStmt_steady hL hL' s).seq (genStmts_steady hL hL' l)).congr agree_append.symm

theorem genElse_steady (hL : PlainFields L) (hL' : PlainFields L') : (els : Option (List Stmt)) →
    Steady fields L L' (Agree L L' (elseCalls L els)) (genElse els)
  | none => Steady.pure.congr (iff_of_true trivial agree_nil)
  | some els => (Steady.emit _).after (genStmts_steady hL hL' els).indented

theorem genCases_steady (hL : PlainFields L) (hL' : PlainFields L') : (cases : List MatchCase) →
    Steady fields L L' (Agree L L' (casesCalls L cases)) (genCases cases)
  | [] => Steady.pure.congr (iff_of_true trivial agree_nil)
  | c :: l => ((genCase_steady hL hL' c).seq (genCases_steady hL hL' l)).congr agree_append.symm

theorem genCase_steady (hL : PlainFields L) (hL' : PlainFields L') : (c : MatchCase) →
    Steady fields L L' (Agree L L' (caseCalls L c)) (genCase c)
  | .mk _ _ body => (Steady.emit _).after ((genStmts_steady hL hL' body).indented.before .close)

end

end Agex

end Zeroxos
