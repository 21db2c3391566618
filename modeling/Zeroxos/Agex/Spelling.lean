import Zeroxos.Agex.Lexemes
import Zeroxos.Agex.ParserTotal
import Zeroxos.Library.CursorRuns

/-!
# The texts in a syntax tree

What a tree has of the source is the values of its literals and its words: the names, the numbers
and the operators. `exprTexts` and the functions after it list them.

## What is known of them

A literal may be any text, but in a tree that was parsed there is no brace in a word, since each of
them is a token, or names with dots between them. That is proved of the parser function by function,
with the rules of `Yields`, and is what makes the braces of the output those of the generator.
-/

namespace Zeroxos

namespace Agex

open Parse

/-- A text of the source. -/
inductive Text
  /-- The value of a string literal or a character literal. -/
  | literal (value : String)
  /-- A name, a number or an operator. -/
  | word (value : String)

/-! ## The texts -/

mutual

/-- The texts of a type. -/
def typeTexts : TypeNode → List Text
  | .infer _ => []
  | .named name _ => [.word name]
  | .generic name args _ => .word name :: typesTexts args
  | .pointer inner _ => typeTexts inner

/-- The texts of all together. -/
def typesTexts : List TypeNode → List Text
  | [] => []
  | t :: l => typeTexts t ++ typesTexts l

end

mutual

/-- The texts of an expression. -/
def exprTexts : Expr → List Text
  | .int value => [.word value]
  | .float value => [.word value]
  | .string value => [.literal value]
  | .bool _ => []
  | .null => []
  | .this => []
  | .ident name => [.word name]
  | .binary op left right => .word op :: (exprTexts left ++ exprTexts right)
  | .unary op operand => .word op :: exprTexts operand
  | .call callee args => exprTexts callee ++ exprsTexts args
  | .method recv name args => .word name :: (exprTexts recv ++ exprsTexts args)
  | .field recv name => .word name :: exprTexts recv
  | .safeCall recv name args => .word name :: (exprTexts recv ++ exprsTexts args)
  | .elvis left right => exprTexts left ++ exprTexts right
  | .new typeName args => .word typeName :: exprsTexts args
  | .cast expr typeName => .word typeName :: exprTexts expr

/-- The texts of all together. -/
def exprsTexts : List Expr → List Text
  | [] => []
  | e :: l => exprTexts e ++ exprsTexts l

end

/-- The texts of an expression, if there is one. -/
def optTexts : Option Expr → List Text
  | none => []
  | some e => exprTexts e

mutual

/-- The texts of a statement. -/
def stmtTexts : Stmt → List Text
  | .letStmt name ty init => .word name :: (typeTexts ty ++ optTexts init)
  | .constStmt name ty init => .word name :: (typeTexts ty ++ optTexts init)
  | .varStmt name ty init => .word name :: (typeTexts ty ++ optTexts init)
  | .assignStmt target _ value => exprTexts target ++ exprTexts value
  | .returnStmt value => optTexts value
  | .ifStmt cond thenBody els => exprTexts cond ++ (stmtsTexts thenBody ++ elseTexts els)
  | .forStmt var iter body => .word var :: (exprTexts iter ++ stmtsTexts body)
  | .matchStmt expr cases => exprTexts expr ++ casesTexts cases
  | .printStmt args => exprsTexts args
  | .unsafeStmt body => stmtsTexts body
  | .exprStmt expr => exprTexts expr

/-- The texts of all together. -/
def stmtsTexts : List Stmt → List Text
  | [] => []
  | s :: l => stmtTexts s ++ stmtsTexts l

/-- The texts of statements, if there are any. -/
def elseTexts : Option (List Stmt) → List Text
  | none => []
  | some els => stmtsTexts els

/-- The texts of the cases of a `match`. -/
def casesTexts : List MatchCase → List Text
  | [] => []
  | c :: l => caseTexts c ++ casesTexts l

/-- The texts of one case. -/
def caseTexts : MatchCase → List Text
  | .mk pattern bindings body => .word pattern :: (bindings.map .word ++ stmtsTexts body)

end

/-- The texts of a parameter. -/
def paramTexts (p : Param) : List Text := .word p.name :: (typeTexts p.ty ++ optTexts p.default)

/-- The texts of parameters and of a return type. -/
def signatureTexts (params : List Param) (returnType : TypeNode) : List Text :=
  params.flatMap paramTexts ++ typeTexts returnType

/-- The texts of a function. -/
def fnTexts (f : FnDecl) : List Text :=
  .word f.name :: (signatureTexts f.params f.returnType ++ (elseTexts f.body ++ optTexts f.exprBody)
    ++ f.receiver.toList.map .word)

mutual

/-- The texts of a class. -/
def classTexts : ClassDecl → List Text
  | .mk name _ _ params bases members subclasses =>
    .word name :: (params.flatMap paramTexts ++ bases.map .word ++ members.flatMap fnTexts
      ++ classesTexts subclasses)

/-- The texts of all together. -/
def classesTexts : List ClassDecl → List Text
  | [] => []
  | c :: l => classTexts c ++ classesTexts l

end

/-- The texts of a foreign function. -/
def externFnTexts (f : ExternFn) : List Text := .word f.name :: signatureTexts f.params f.returnType

/-- The texts of a declaration. -/
def declTexts : Decl → List Text
  | .importDecl i => [.word i.module]
  | .externDecl e => .literal e.abi :: e.fns.flatMap externFnTexts
  | .fn f => fnTexts f
  | .classDecl c => classTexts c
  | .interface i => .word i.name :: i.methods.flatMap fnTexts
  | .object o => .word o.name :: o.members.flatMap fnTexts
  | .driver v => .word v.name :: .word v.implements :: v.members.flatMap fnTexts
  | .stmt s => stmtTexts s

/-- The value of a literal. -/
def Text.literal? : Text → Option String
  | .literal value => some value
  | .word _ => none

/-- The values of the string literals and the character literals of a program. -/
def Program.literals (prog : Program) : List String :=
  (prog.decls.flatMap declTexts).filterMap Text.literal?

theorem eq_flatMap {α β : Type} {f : α → List β} {g : List α → List β} (hnil : g [] = [])
    (hcons : ∀ a l, g (a :: l) = f a ++ g l) (l : List α) : g l = l.flatMap f := by
  induction l with
  | nil => exact hnil
  | cons a l ih => rw [hcons, ih, List.flatMap_cons]

theorem typesTexts_eq (l : List TypeNode) : typesTexts l = l.flatMap typeTexts :=
  eq_flatMap rfl (fun _ _ ↦ rfl) l

theorem exprsTexts_eq (l : List Expr) : exprsTexts l = l.flatMap exprTexts :=
  eq_flatMap rfl (fun _ _ ↦ rfl) l

theorem stmtsTexts_eq (l : List Stmt) : stmtsTexts l = l.flatMap stmtTexts :=
  eq_flatMap rfl (fun _ _ ↦ rfl) l

theorem casesTexts_eq (l : List MatchCase) : casesTexts l = l.flatMap caseTexts :=
  eq_flatMap rfl (fun _ _ ↦ rfl) l

theorem classesTexts_eq (l : List ClassDecl) : classesTexts l = l.flatMap classTexts :=
  eq_flatMap rfl (fun _ _ ↦ rfl) l

/-! ## Words without braces -/

/-- A text without braces. -/
def Braceless (s : String) : Prop := '\x7b' ∉ s.toList ∧ '\x7d' ∉ s.toList

instance (s : String) : Decidable (Braceless s) := inferInstanceAs (Decidable (_ ∧ _))

theorem Braceless.append {s t : String} (hs : Braceless s) (ht : Braceless t) :
    Braceless (s ++ t) := by
  rw [Braceless, String.toList_append, List.mem_append, not_or, List.mem_append, not_or]
  exact ⟨⟨hs.1, ht.1⟩, hs.2, ht.2⟩

theorem braceless_of_forall {P : Char → Prop} {s : String} (h : ∀ c ∈ s.toList, P c)
    (hopen : ¬P '\x7b') (hclose : ¬P '\x7d') : Braceless s :=
  ⟨fun hmem ↦ hopen (h _ hmem), fun hmem ↦ hclose (h _ hmem)⟩

theorem IsName.braceless {name : String} (h : IsName name) : Braceless name :=
  ⟨h.notMem rfl, h.notMem rfl⟩

theorem IsInt.braceless {value : String} (h : IsInt value) : Braceless value := by
  obtain ⟨whole, suffix, hvalue, -, hwhole, hsuffix, -⟩ := h
  refine braceless_of_forall
    (P := fun c ↦ isDigitOrUnderscore c = true ∨ isAsciiAlphanumeric c = true) ?_ (by decide)
    (by decide)
  rw [hvalue]
  exact List.forall_mem_append.mpr
    ⟨fun c hc ↦ .inl (hwhole c hc), fun c hc ↦ .inr (hsuffix c hc)⟩

theorem IsFloat.braceless {value : String} (h : IsFloat value) : Braceless value := by
  obtain ⟨whole, fraction, suffix, hvalue, -, -, hwhole, hfraction, hsuffix, -⟩ := h
  refine braceless_of_forall
    (P := fun c ↦ c = '.' ∨ isDigitOrUnderscore c = true ∨ isAsciiAlphanumeric c = true) ?_
    (by decide) (by decide)
  rw [hvalue]
  refine List.forall_mem_append.mpr ⟨List.forall_mem_append.mpr ⟨?_, ?_⟩, ?_⟩
  · exact fun c hc ↦ .inr (.inl (hwhole c hc))
  · exact List.forall_mem_cons.mpr ⟨.inl rfl, fun c hc ↦ .inr (.inl (hfraction c hc))⟩
  · exact fun c hc ↦ .inr (.inr (hsuffix c hc))

theorem WellWritten.braceless {t : Token} (h : WellWritten t) (hty : (fixedText t.ty).isSome) :
    Braceless t.value := by
  have hall : ∀ {ty text}, fixedText ty = some text → Braceless text := by
    intro ty text hfixed
    cases ty <;> cases hfixed <;> decide
  obtain ⟨text, htext⟩ := Option.isSome_iff_exists.mp hty
  rw [h.value_eq htext]
  exact hall htext

/-- A text that has no braces, if it is a word. -/
def Text.Spelled : Text → Prop
  | literal _ => True
  | word value => Braceless value

/-- There are no braces in the words. -/
def AllSpelled (l : List Text) : Prop := ∀ t ∈ l, t.Spelled

theorem allSpelled_nil : AllSpelled [] := List.forall_mem_nil _

theorem AllSpelled.append {k l : List Text} (hk : AllSpelled k) (hl : AllSpelled l) :
    AllSpelled (k ++ l) := List.forall_mem_append.mpr ⟨hk, hl⟩

theorem AllSpelled.cons {t : Text} {l : List Text} (ht : t.Spelled) (hl : AllSpelled l) :
    AllSpelled (t :: l) := List.forall_mem_cons.mpr ⟨ht, hl⟩

theorem allSpelled_word {value : String} (h : Braceless value) : AllSpelled [.word value] :=
  List.forall_mem_singleton.mpr h

theorem allSpelled_flatMap {α : Type} {f : α → List Text} {l : List α}
    (h : ∀ a ∈ l, AllSpelled (f a)) : AllSpelled (l.flatMap f) := List.forall_mem_flatMap.mpr h

theorem allSpelled_words {l : List String} (h : ∀ s ∈ l, Braceless s) :
    AllSpelled (l.map .word) := List.forall_mem_map.mpr h

/-! ## The cursor -/

/-- What the parser makes of the tokens of the lexer. -/
abbrev Spells {α : Type} (pre : Token → Prop) (p : P α) (post : α → Prop) : Prop :=
  Gives WellWritten pre p post

variable {α : Type} {pre : Token → Prop} {ty next : TokenType} {p q : P α} {post : α → Prop}
  {tok : Token} {fuel depth : ℕ}

theorem isAt_spells {f : Bool → P α} (h : ∀ b, Spells (fun _ ↦ True) (f b) post) :
    Spells pre (isAt ty >>= f) post := by
  rw [isAt, bind_assoc]
  exact .current_bind fun t _ _ ↦ (h _).weaken

theorem ifAt_spells (hp : Spells (fun _ ↦ True) p post) (hq : Spells (fun _ ↦ True) q post) :
    Spells pre (ifAt ty p q) post := isAt_spells fun _ ↦ .ite (fun _ ↦ hp) fun _ ↦ hq

theorem ifAtThen_spells (hp : Spells (fun _ ↦ True) p post) (hq : Spells (fun _ ↦ True) q post) :
    Spells pre (ifAtThen ty next p q) post :=
  ifAt_spells (.lookahead_bind fun _ ↦ .ite (fun _ ↦ hp) fun _ ↦ hq) hq

theorem maybe_spells : Spells pre (maybe ty) fun _ ↦ True :=
  isAt_spells fun _ ↦ .ite
    (fun _ ↦ .current_bind fun _ _ _ ↦ Gives.advance.bind fun _ _ ↦ .pure trivial)
    fun _ ↦ .pure trivial

theorem ifMaybe_spells (hp : Spells (fun _ ↦ True) p post) (hq : Spells (fun _ ↦ True) q post) :
    Spells pre (ifMaybe ty p q) post :=
  maybe_spells.bind fun _ _ ↦ .ite (fun _ ↦ hp) fun _ ↦ hq

theorem eat_spells : Spells pre (eat ty) fun t ↦ WellWritten t ∧ t.ty = ty := by
  intro c t c' hrun hgood _
  obtain ⟨hget, hty, htoks, -⟩ := eat_ok hrun
  exact ⟨htoks, hgood t (List.mem_of_getElem? hget), hty⟩

theorem eatIdent_spells : Spells pre (eat .ident) fun t ↦ Braceless t.value :=
  eat_spells.imp fun _ h ↦ (h.1.name h.2).braceless

theorem eatCur_spells : Spells (fun t ↦ t = tok) eatCur fun t ↦ t = tok := by
  refine .current_bind fun t _ ht c t' c' hrun _ hpre ↦ ?_
  obtain ⟨hget, -, htoks, -⟩ := eat_ok hrun
  exact ⟨htoks, (hpre t' hget).trans ht⟩

theorem eatAny_spells : Spells pre eatCur fun _ ↦ True :=
  .current_bind fun _ _ _ ↦ eat_spells.imp fun _ _ ↦ trivial

theorem oneMore_spells {item : P α} (h : Spells (fun _ ↦ True) item post) (out : List α)
    (hout : ∀ a ∈ out, post a) :
    Spells pre (do return out ++ [← item]) fun out ↦ ∀ a ∈ out, post a :=
  .bind_pure (h.weaken.imp fun _ ha ↦
    List.forall_mem_append.mpr ⟨hout, List.forall_mem_singleton.mpr ha⟩)

theorem moreItems_spells {item : P α} (h : Spells (fun _ ↦ True) item post) {out : List α}
    (hout : ∀ a ∈ out, post a) : Spells pre (moreItems item fuel out) fun out ↦ ∀ a ∈ out, post a :=
  .whileLoop (maybe_spells.bind fun _ _ ↦ .pure trivial) (oneMore_spells h) fuel hout

theorem items_spells {close : TokenType} {item : P α} (h : Spells (fun _ ↦ True) item post) :
    Spells pre (items close item fuel) fun out ↦ ∀ a ∈ out, post a :=
  ifAt_spells (.pure (List.forall_mem_nil _))
    (h.bind fun _ ha ↦ moreItems_spells h (List.forall_mem_singleton.mpr ha))

theorem whileNotAt_spells {close : TokenType} {item : P α}
    (h : Spells (fun _ ↦ True) item post) :
    Spells pre (whileNotAt close item fuel) fun out ↦ ∀ a ∈ out, post a :=
  .whileLoop (isAt_spells fun _ ↦ .pure trivial) (oneMore_spells h) fuel (List.forall_mem_nil _)

/-! ## Types -/

theorem typeTexts_nullable (t : TypeNode) : typeTexts t.nullable = typeTexts t := by
  cases t <;> rfl

theorem parseType_spells (fuel : ℕ) :
    Spells pre (parseType fuel) fun t ↦ AllSpelled (typeTexts t) := by
  refine .weaken ?_
  induction fuel with
  | zero => exact .outOfFuel
  | succ fuel ih =>
    have htype : Spells (fun _ ↦ True) (ifAt .star (do
        let _ ← eat .star
        return TypeNode.pointer (← parseType fuel) false) (do
        let name := (← eat .ident).value
        ifMaybe .lBracket (do
            let args ← items .rBracket (parseType fuel) (fuel + 1)
            let _ ← eat .rBracket
            return .generic name args false)
          (return .named name false))) fun t ↦ AllSpelled (typeTexts t) := by
      refine ifAt_spells (eat_spells.bind fun _ _ ↦ .bind_pure ih) ?_
      refine eatIdent_spells.bind fun name hname ↦ ifMaybe_spells ?_ (.pure (allSpelled_word hname))
      refine (items_spells ih).bind fun args hargs ↦ eat_spells.bind fun _ _ ↦ .pure ?_
      rw [typeTexts, typesTexts_eq]
      exact .cons hname (allSpelled_flatMap hargs)
    refine htype.bind fun t ht ↦ ifMaybe_spells (.pure ?_) (.pure ht)
    rwa [typeTexts_nullable]

/-! ## Expressions -/

section Expr

variable {pe : P Expr} (hpe : Spells (fun _ ↦ True) pe fun e ↦ AllSpelled (exprTexts e))

include hpe

theorem parseArgs_spells :
    Spells pre (parseArgs pe fuel) fun args ↦ AllSpelled (exprsTexts args) := by
  refine eat_spells.bind fun _ _ ↦ (items_spells hpe).bind fun args hargs ↦
    eat_spells.bind fun _ _ ↦ .pure ?_
  rw [exprsTexts_eq]
  exact allSpelled_flatMap hargs

theorem parseNamed_spells (isPrint : Bool) {value : String} (hvalue : Braceless value) :
    Spells pre (parseNamed pe fuel isPrint value) fun e ↦ AllSpelled (exprTexts e) := by
  have hident : AllSpelled (exprTexts (.ident value)) := allSpelled_word hvalue
  have hprintln : Braceless "println" := by decide
  refine .ite (fun _ ↦ .pure allSpelled_nil) fun _ ↦ .ite (fun _ ↦ .pure allSpelled_nil) fun _ ↦
    .ite (fun _ ↦ .pure allSpelled_nil) fun _ ↦ isAt_spells fun _ ↦ .ite (fun _ ↦ ?_) fun _ ↦
    .ite (fun _ ↦ ifAt_spells ?_ (.pure hident)) fun _ ↦ .pure hident
  · exact .bind_pure ((parseArgs_spells hpe).imp fun args hargs ↦ .cons hvalue hargs)
  · exact .bind_pure ((parseArgs_spells hpe).imp fun args hargs ↦ .cons hprintln hargs)

theorem parseName_spells {value : Token} (hvalue : Braceless value.value) :
    Spells pre (parseName pe fuel value) fun e ↦ AllSpelled (exprTexts e) :=
  isAt_spells fun isPrint ↦ eatAny_spells.bind fun _ _ ↦ parseNamed_spells hpe isPrint hvalue

theorem parsePrimary_spells :
    Spells pre (parsePrimary pe fuel) fun e ↦ AllSpelled (exprTexts e) := by
  refine .current_bind fun tok hgood _ ↦ ?_
  split
  · rename_i hty
    exact eat_spells.bind fun _ _ ↦ .pure (allSpelled_word (hgood.int hty).braceless)
  · rename_i hty
    exact eat_spells.bind fun _ _ ↦ .pure (allSpelled_word (hgood.float hty).braceless)
  · exact eat_spells.bind fun _ _ ↦ .pure (List.forall_mem_singleton.mpr trivial)
  · exact eat_spells.bind fun _ _ ↦ .pure (List.forall_mem_singleton.mpr trivial)
  · exact eat_spells.bind fun _ _ ↦ hpe.bind fun e he ↦ eat_spells.bind fun _ _ ↦ .pure he
  · rename_i hty
    exact parseName_spells hpe (hgood.name hty).braceless
  · rename_i hty
    exact parseName_spells hpe (hgood.braceless (by rw [hty]; rfl))
  · rename_i hty
    exact parseName_spells hpe (hgood.braceless (by rw [hty]; rfl))
  · exact .fail _

theorem postfixRound_spells {expr : Expr} (hexpr : AllSpelled (exprTexts expr)) :
    Spells pre (postfixRound pe fuel expr) fun r ↦ AllSpelled (exprTexts r.state) := by
  refine ifAt_spells ?_ (ifAtThen_spells ?_ (ifAt_spells ?_ (.pure hexpr)))
  · refine eat_spells.bind fun _ _ ↦ eatIdent_spells.bind fun name hname ↦
      ifAt_spells (.bind_pure ?_) (.pure (.cons hname hexpr))
    exact (parseArgs_spells hpe).imp fun args hargs ↦ .cons hname (hexpr.append hargs)
  · refine eat_spells.bind fun _ _ ↦ eat_spells.bind fun _ _ ↦ eatIdent_spells.bind fun name hname ↦
      ifAt_spells (.bind_pure ?_) (.pure (.cons hname (hexpr.append allSpelled_nil)))
    exact (parseArgs_spells hpe).imp fun args hargs ↦ .cons hname (hexpr.append hargs)
  · exact .bind_pure ((parseArgs_spells hpe).imp fun args hargs ↦ hexpr.append hargs)

theorem parsePostfix_spells :
    Spells pre (parsePostfix pe fuel) fun e ↦ AllSpelled (exprTexts e) :=
  (parsePrimary_spells hpe).bind fun _ he ↦
    .loop (fun _ hexpr ↦ postfixRound_spells hpe hexpr) fuel he

theorem parseUnary_spells :
    Spells pre (parseUnary pe fuel depth) fun e ↦ AllSpelled (exprTexts e) := by
  refine .weaken ?_
  induction depth with
  | zero => exact .outOfFuel
  | succ depth ih =>
    have hamp : Braceless "&" := by decide
    refine .current_bind fun tok hgood _ ↦ .ite (fun hty ↦ ?_) fun _ ↦
      ifAt_spells ?_ (parsePostfix_spells hpe)
    · have hop : Braceless tok.value := by
        refine hgood.braceless ?_
        rcases hty with hty | hty <;> rw [hty] <;> rfl
      refine eatCur_spells.bind fun t ht ↦ .bind_pure (ih.imp fun e he ↦ ?_)
      exact .cons (ht ▸ hop) he
    · exact eat_spells.bind fun _ _ ↦ .bind_pure (ih.imp fun e he ↦ .cons hamp he)

omit hpe in
theorem operatorChain_spells {isOp : TokenType → Bool} {op : Token → String} {operand : P Expr}
    (hop : ∀ t, WellWritten t → isOp t.ty = true → Braceless (op t))
    (hoperand : Spells (fun _ ↦ True) operand fun e ↦ AllSpelled (exprTexts e)) :
    Spells pre (operatorChain fuel isOp op operand) fun e ↦ AllSpelled (exprTexts e) := by
  refine hoperand.weaken.bind fun left hleft ↦ .loop (fun left hleft ↦ ?_) fuel hleft
  rw [bind_assoc]
  refine .current_bind fun tok hgood _ ↦ ?_
  rw [pure_bind]
  refine .ite (fun hcur ↦ .bind_pure ?_) fun _ ↦ .pure hleft
  refine eatCur_spells.bind fun t ht ↦ .bind_pure (hoperand.imp fun right hright ↦ ?_)
  exact .cons (ht ▸ hop tok hgood hcur) (hleft.append hright)

theorem parseMul_spells : Spells pre (parseMul pe fuel) fun e ↦ AllSpelled (exprTexts e) := by
  refine operatorChain_spells (fun t h hop ↦ h.braceless ?_) (parseUnary_spells hpe)
  rcases of_decide_eq_true hop with hty | hty | hty <;> rw [hty] <;> rfl

theorem parseAdd_spells : Spells pre (parseAdd pe fuel) fun e ↦ AllSpelled (exprTexts e) := by
  refine operatorChain_spells (fun t h hop ↦ h.braceless ?_) (parseMul_spells hpe)
  rcases of_decide_eq_true hop with hty | hty <;> rw [hty] <;> rfl

theorem parseIs_spells : Spells pre (parseIs pe fuel) fun e ↦ AllSpelled (exprTexts e) := by
  refine (parseAdd_spells hpe).bind fun left hleft ↦ .whileLoop ?_ (fun left hleft ↦ ?_) fuel hleft
  · exact ifAt_spells (.current_bind fun _ _ _ ↦ .pure trivial) (.pure trivial)
  · refine eat_spells.bind fun _ _ ↦ eatIdent_spells.bind fun typeName hname ↦ .pure ?_
    exact .cons hname hleft

theorem parseCmp_spells : Spells pre (parseCmp pe fuel) fun e ↦ AllSpelled (exprTexts e) := by
  refine operatorChain_spells (fun t h hop ↦ h.braceless ?_) (parseIs_spells hpe)
  rcases of_decide_eq_true hop with hty | hty | hty | hty <;> rw [hty] <;> rfl

theorem parseEq_spells : Spells pre (parseEq pe fuel) fun e ↦ AllSpelled (exprTexts e) := by
  refine operatorChain_spells (fun t h hop ↦ h.braceless ?_) (parseCmp_spells hpe)
  rcases of_decide_eq_true hop with hty | hty <;> rw [hty] <;> rfl

theorem parseAnd_spells : Spells pre (parseAnd pe fuel) fun e ↦ AllSpelled (exprTexts e) :=
  operatorChain_spells (fun _ _ _ ↦ by decide) (parseEq_spells hpe)

theorem parseOr_spells : Spells pre (parseOr pe fuel) fun e ↦ AllSpelled (exprTexts e) :=
  operatorChain_spells (fun _ _ _ ↦ by decide) (parseAnd_spells hpe)

theorem parseElvis_spells : Spells pre (parseElvis pe fuel) fun e ↦ AllSpelled (exprTexts e) := by
  refine (parseOr_spells hpe).bind fun left hleft ↦ .whileLoop ?_ (fun left hleft ↦ ?_) fuel hleft
  · exact ifAtThen_spells (.pure trivial) (.pure trivial)
  · refine eat_spells.bind fun _ _ ↦ eat_spells.bind fun _ _ ↦ .bind_pure ?_
    exact (parseOr_spells hpe).imp fun right hright ↦ hleft.append hright

end Expr

/-- **What the parser makes of the tokens of an expression.** -/
theorem parseExpr_spells (fuel : ℕ) :
    Spells pre (parseExpr fuel) fun e ↦ AllSpelled (exprTexts e) := by
  refine .weaken ?_
  induction fuel with
  | zero => exact .outOfFuel
  | succ fuel ih => exact parseElvis_spells ih

/-! ## Statements -/

theorem ifMaybeExpr_spells : Spells pre (ifMaybe ty (do return some (← parseExpr fuel))
    (return none)) fun init ↦ AllSpelled (optTexts init) :=
  ifMaybe_spells (.bind_pure (parseExpr_spells fuel)) (.pure allSpelled_nil)

theorem ifMaybeType_spells : Spells pre (ifMaybe ty (parseType fuel) (return .inferred))
    fun t ↦ AllSpelled (typeTexts t) :=
  ifMaybe_spells (parseType_spells fuel) (.pure allSpelled_nil)

section Stmt

variable {ps : P Stmt} (hps : Spells (fun _ ↦ True) ps fun s ↦ AllSpelled (stmtTexts s))

include hps

theorem parseStmts_spells :
    Spells pre (parseStmts ps fuel) fun body ↦ AllSpelled (stmtsTexts body) := by
  have hloop : Spells pre (parseStmts ps fuel) fun body ↦ ∀ s ∈ body, AllSpelled (stmtTexts s) :=
    .whileLoop (ifAt_spells (.pure trivial) (isAt_spells fun _ ↦ .pure trivial))
      (oneMore_spells hps) fuel (List.forall_mem_nil _)
  refine hloop.imp fun body hbody ↦ ?_
  rw [stmtsTexts_eq]
  exact allSpelled_flatMap hbody

theorem parseBlock_spells :
    Spells pre (parseBlock ps fuel) fun body ↦ AllSpelled (stmtsTexts body) :=
  eat_spells.bind fun _ _ ↦ (parseStmts_spells hps).bind fun _ hbody ↦
    eat_spells.bind fun _ _ ↦ .pure hbody

omit hps in
theorem parseBinding_spells {kw : TokenType} {mk : String → TypeNode → Option Expr → Stmt}
    (hmk : ∀ name ty init,
      stmtTexts (mk name ty init) = .word name :: (typeTexts ty ++ optTexts init)) :
    Spells pre (parseBinding fuel kw mk) fun s ↦ AllSpelled (stmtTexts s) := by
  refine eat_spells.bind fun _ _ ↦ eatIdent_spells.bind fun name hname ↦
    ifMaybeType_spells.bind fun t ht ↦ ifMaybeExpr_spells.bind fun init hinit ↦ .pure ?_
  rw [hmk]
  exact .cons hname (ht.append hinit)

omit hps in
theorem parseReturn_spells : Spells pre (parseReturn fuel) fun s ↦ AllSpelled (stmtTexts s) := by
  have hnone : Spells (fun _ ↦ True) (return .returnStmt none : P Stmt)
      fun s ↦ AllSpelled (stmtTexts s) := .pure allSpelled_nil
  exact eat_spells.bind fun _ _ ↦ ifAt_spells hnone (ifAt_spells hnone
    (ifAt_spells hnone (.bind_pure ((parseExpr_spells fuel).imp fun _ h ↦ h))))

theorem parseIf_spells : Spells pre (parseIf ps fuel depth) fun s ↦ AllSpelled (stmtTexts s) := by
  refine .weaken ?_
  induction depth with
  | zero => exact .outOfFuel
  | succ depth ih =>
    have helse : Spells (fun _ ↦ True) (ifMaybe .elseKw
        (ifAt .ifKw (do return some [← parseIf ps fuel depth])
          (do return some (← parseBlock ps fuel)))
        (return none)) fun els ↦ AllSpelled (elseTexts els) :=
      ifMaybe_spells (ifAt_spells (.bind_pure (ih.imp fun _ h ↦ h.append allSpelled_nil))
        (.bind_pure (parseBlock_spells hps))) (.pure allSpelled_nil)
    exact eat_spells.bind fun _ _ ↦ (parseExpr_spells fuel).bind fun cond hcond ↦
      (parseBlock_spells hps).bind fun thenBody hthen ↦ helse.bind fun els hels ↦
      .pure (hcond.append (hthen.append hels))

theorem parseFor_spells : Spells pre (parseFor ps fuel) fun s ↦ AllSpelled (stmtTexts s) :=
  eat_spells.bind fun _ _ ↦ eatIdent_spells.bind fun _ hvar ↦ eat_spells.bind fun _ _ ↦
    (parseExpr_spells fuel).bind fun _ hiter ↦ (parseBlock_spells hps).bind fun _ hbody ↦
    .pure (.cons hvar (hiter.append hbody))

omit hps in
theorem parseBindings_spells :
    Spells pre (parseBindings fuel) fun bindings ↦ AllSpelled (bindings.map .word) := by
  have hitem : Spells (fun _ ↦ True) (do return (← eat .ident).value) Braceless :=
    .bind_pure eatIdent_spells
  exact ifMaybe_spells ((items_spells hitem).bind fun bindings hbindings ↦
    eat_spells.bind fun _ _ ↦ .pure (allSpelled_words hbindings)) (.pure allSpelled_nil)

omit hps in
theorem parsePattern_spells : Spells pre (parsePattern fuel)
    fun head ↦ Braceless head.1 ∧ AllSpelled (head.2.map .word) := by
  refine ifAt_spells ?_ (ifAt_spells (eat_spells.bind fun _ _ ↦ .pure ⟨by decide, allSpelled_nil⟩)
    (.pure ⟨by decide, allSpelled_nil⟩))
  refine eatIdent_spells.bind fun first hfirst ↦ ?_
  have hpattern : Spells (fun _ ↦ True) (whileLoop (do return (← maybe .dot).isSome)
      (fun pattern ↦ do return pattern ++ "." ++ (← eat .ident).value) fuel first.value)
      Braceless := by
    refine .whileLoop (maybe_spells.bind fun _ _ ↦ .pure trivial) (fun pattern hpattern ↦ ?_) fuel
      hfirst
    have hdot : Braceless "." := by decide
    exact .bind_pure (eatIdent_spells.imp fun _ hname ↦ (hpattern.append hdot).append hname)
  exact hpattern.bind fun pattern hpattern ↦
    .bind_pure (parseBindings_spells.imp fun _ h ↦ ⟨hpattern, h⟩)

theorem parseCase_spells : Spells pre (parseCase ps fuel) fun c ↦ AllSpelled (caseTexts c) := by
  have hbody : Spells (fun _ ↦ True) (ifMaybe .lBrace (do
      let body ← parseStmts ps fuel
      let _ ← eat .rBrace
      return body) (do return [← ps])) fun body ↦ AllSpelled (stmtsTexts body) :=
    ifMaybe_spells ((parseStmts_spells hps).bind fun _ h ↦ eat_spells.bind fun _ _ ↦ .pure h)
      (.bind_pure (hps.imp fun _ h ↦ h.append allSpelled_nil))
  exact parsePattern_spells.bind fun _ hhead ↦ eat_spells.bind fun _ _ ↦
    hbody.bind fun _ hbody ↦ .pure (.cons hhead.1 (hhead.2.append hbody))

theorem parseMatch_spells : Spells pre (parseMatch ps fuel) fun s ↦ AllSpelled (stmtTexts s) := by
  refine eat_spells.bind fun _ _ ↦ (parseExpr_spells fuel).bind fun expr hexpr ↦
    eat_spells.bind fun _ _ ↦ (whileNotAt_spells (parseCase_spells hps)).bind fun cases hcases ↦
    eat_spells.bind fun _ _ ↦ .pure (hexpr.append ?_)
  rw [casesTexts_eq]
  exact allSpelled_flatMap hcases

omit hps in
theorem parsePrint_spells : Spells pre (parsePrint fuel) fun s ↦ AllSpelled (stmtTexts s) :=
  eat_spells.bind fun _ _ ↦
    .bind_pure ((parseArgs_spells (parseExpr_spells fuel)).imp fun _ h ↦ h)

theorem parseUnsafe_spells : Spells pre (parseUnsafe ps fuel) fun s ↦ AllSpelled (stmtTexts s) :=
  eat_spells.bind fun _ _ ↦ .bind_pure ((parseBlock_spells hps).imp fun _ h ↦ h)

omit hps in
theorem parseExprOrAssign_spells :
    Spells pre (parseExprOrAssign fuel) fun s ↦ AllSpelled (stmtTexts s) := by
  refine (parseExpr_spells fuel).bind fun expr hexpr ↦ .current_bind fun tok _ _ ↦ ?_
  split
  · exact eatAny_spells.bind fun _ _ ↦
      .bind_pure ((parseExpr_spells fuel).imp fun _ hvalue ↦ hexpr.append hvalue)
  · exact .pure hexpr

end Stmt

/-- **What the parser makes of the tokens of a statement.** -/
theorem parseStmt_spells (fuel : ℕ) :
    Spells pre (parseStmt fuel) fun s ↦ AllSpelled (stmtTexts s) := by
  refine .weaken ?_
  induction fuel with
  | zero => exact .outOfFuel
  | succ fuel ih =>
    refine .current_bind fun tok _ _ ↦ ?_
    split
    · exact parseBinding_spells fun _ _ _ ↦ rfl
    · exact parseBinding_spells fun _ _ _ ↦ rfl
    · exact parseBinding_spells fun _ _ _ ↦ rfl
    · exact parseReturn_spells
    · exact parseIf_spells ih
    · exact parseFor_spells ih
    · exact parseMatch_spells ih
    · exact parsePrint_spells
    · exact parseUnsafe_spells ih
    · exact parseExprOrAssign_spells

/-! ## Declarations -/

theorem parseParams_spells :
    Spells pre (parseParams fuel) fun params ↦ AllSpelled (params.flatMap paramTexts) := by
  refine .loop (fun params hparams ↦ ?_) fuel allSpelled_nil
  have hmutable : Spells (fun _ ↦ True) (ifAt .varKw (do
      let _ ← eat .varKw
      return true) (return false)) fun _ ↦ True :=
    ifAt_spells (eat_spells.bind fun _ _ ↦ .pure trivial) (.pure trivial)
  refine ifAt_spells (.pure hparams) (hmutable.bind fun mutable _ ↦
    eatIdent_spells.bind fun name hname ↦ eat_spells.bind fun _ _ ↦
    (parseType_spells fuel).bind fun t ht ↦ ifMaybeExpr_spells.bind fun default hdefault ↦ ?_)
  have hparam : AllSpelled (paramTexts ⟨name.value, t, mutable, default⟩) :=
    .cons hname (ht.append hdefault)
  have hnext : AllSpelled ((params ++ [(⟨name.value, t, mutable, default⟩ : Param)]).flatMap
      paramTexts) := by
    rw [List.flatMap_append, List.flatMap_singleton]
    exact hparams.append hparam
  exact ifMaybe_spells (.pure hnext) (.pure hnext)

theorem parseSignature_spells :
    Spells pre (parseSignature fuel) fun s ↦ AllSpelled (signatureTexts s.1 s.2) :=
  eat_spells.bind fun _ _ ↦ parseParams_spells.bind fun _ hparams ↦ eat_spells.bind fun _ _ ↦
    .bind_pure (ifMaybeType_spells.imp fun _ ht ↦ hparams.append ht)

theorem parseExternFn_spells :
    Spells pre (parseExternFn fuel) fun f ↦ AllSpelled (externFnTexts f) :=
  eat_spells.bind fun _ _ ↦ eatIdent_spells.bind fun _ hname ↦
    .bind_pure (parseSignature_spells.imp fun _ h ↦ .cons hname h)

theorem parseExtern_spells :
    Spells pre (parseExtern fuel) fun e ↦ AllSpelled (declTexts (.externDecl e)) :=
  eat_spells.bind fun _ _ ↦ maybe_spells.bind fun _ _ ↦ eat_spells.bind fun _ _ ↦
    (whileNotAt_spells parseExternFn_spells).bind fun _ hfns ↦ eat_spells.bind fun _ _ ↦
    .pure (.cons trivial (allSpelled_flatMap hfns))

theorem parseInterruptAsStmt_spells :
    Spells pre (parseInterruptAsStmt fuel) fun s ↦ AllSpelled (stmtTexts s) :=
  eat_spells.bind fun _ _ ↦ eat_spells.bind fun _ _ ↦ eat_spells.bind fun _ _ ↦
    eat_spells.bind fun _ _ ↦
    .bind_pure ((parseBlock_spells (parseStmt_spells fuel)).imp fun _ h ↦ h)

theorem parseExprBody_spells : Spells pre (parseExprBody fuel)
    fun body ↦ AllSpelled (elseTexts body.1 ++ optTexts body.2) :=
  eatAny_spells.bind fun _ _ ↦ (parseExpr_spells fuel).bind fun _ hbody ↦
    maybe_spells.bind fun _ _ ↦ .pure hbody

theorem parseFnBody_spells : Spells pre (parseFnBody fuel)
    fun body ↦ AllSpelled (elseTexts body.1 ++ optTexts body.2) :=
  ifAt_spells parseExprBody_spells (ifAt_spells parseExprBody_spells (ifAt_spells
    (.bind_pure ((parseBlock_spells (parseStmt_spells fuel)).imp fun _ h ↦ h.append allSpelled_nil))
    (.current_bind fun _ _ _ ↦ .fail _)))

theorem parseFn_spells (isAsync isUnsafe : Bool) :
    Spells pre (parseFn fuel isAsync isUnsafe) fun f ↦ AllSpelled (fnTexts f) := by
  have hasync : Spells pre (if isAsync then do return some (← eat .asyncKw) else return none)
      fun _ ↦ True :=
    .ite (fun _ ↦ .bind_pure (eat_spells.imp fun _ _ ↦ trivial)) fun _ ↦ .pure trivial
  have hreceiver : Spells (fun _ ↦ True) (ifAtThen .ident .dot (do
      let receiver := (← eat .ident).value
      let _ ← eat .dot
      return some receiver) (return none))
      fun receiver ↦ AllSpelled (receiver.toList.map .word) :=
    ifAtThen_spells (eatIdent_spells.bind fun _ hname ↦ eat_spells.bind fun _ _ ↦
      .pure (allSpelled_word hname)) (.pure allSpelled_nil)
  exact hasync.bind fun _ _ ↦ eat_spells.bind fun _ _ ↦ hreceiver.bind fun _ hreceiver ↦
    eatIdent_spells.bind fun _ hname ↦ parseSignature_spells.bind fun _ hsignature ↦
    .bind_pure (parseFnBody_spells.imp fun _ hbody ↦
      .cons hname ((hsignature.append hbody).append hreceiver))

theorem attemptEat_spells : Spells pre (attempt (eat ty)) fun _ ↦ True := by
  refine .attempt fun c ↦ ?_
  cases hget : c.toks[c.pos]? with
  | none => simp [eat, isAt, cur, current, hget, Bind.bind, Cursor.note]
  | some t =>
    by_cases hty : t.ty = ty
    · simp [eat, isAt, cur, current, hget, Bind.bind, pure, hty, Cursor.note, advance]
    · simp [eat, isAt, cur, current, hget, Bind.bind, pure, hty, Cursor.note, fail]

theorem skipOptionalParens_spells : Spells pre (skipOptionalParens fuel) fun _ ↦ True := by
  have hskip : Spells (fun _ ↦ True) (whileLoop
      (ifAt .rParen (return false) (return !(← isAt .eof))) (fun _ ↦ advance) fuel ())
      fun _ ↦ True :=
    .whileLoop (ifAt_spells (.pure trivial) (isAt_spells fun _ ↦ .pure trivial))
      (fun _ _ ↦ .advance) fuel trivial
  exact ifAt_spells (attemptEat_spells.bind fun _ _ ↦ hskip.bind fun _ _ ↦
    attemptEat_spells.bind fun _ _ ↦ .pure trivial) (.pure trivial)

theorem parseBase_spells : Spells pre (parseBase fuel) Braceless :=
  eatIdent_spells.bind fun _ hname ↦ skipOptionalParens_spells.bind fun _ _ ↦ .pure hname

theorem parseMember_spells : Spells pre (parseMember fuel) fun f ↦ AllSpelled (fnTexts f) :=
  ifAt_spells (parseFn_spells false false) (.current_bind fun _ _ _ ↦ .fail _)

theorem parseClass_spells (isData isSealed : Bool) :
    Spells pre (parseClass fuel depth isData isSealed) fun c ↦ AllSpelled (classTexts c) := by
  refine .weaken ?_
  induction depth generalizing isData isSealed with
  | zero => exact .outOfFuel
  | succ depth ih =>
    have hparams : Spells (fun _ ↦ True) (ifMaybe .lParen (do
        let params ← parseParams fuel
        let _ ← eat .rParen
        return params) (return [])) fun params ↦ AllSpelled (params.flatMap paramTexts) :=
      ifMaybe_spells (parseParams_spells.bind fun _ h ↦ eat_spells.bind fun _ _ ↦ .pure h)
        (.pure allSpelled_nil)
    have hbases : Spells (fun _ ↦ True) (ifMaybe .colon (do
        moreItems (parseBase fuel) fuel [← parseBase fuel]) (return []))
        fun bases ↦ AllSpelled (bases.map .word) :=
      ifMaybe_spells (parseBase_spells.bind fun _ hbase ↦
        (moreItems_spells parseBase_spells (List.forall_mem_singleton.mpr hbase)).imp
          fun _ h ↦ allSpelled_words h) (.pure allSpelled_nil)
    have hmembers : Spells (fun _ ↦ True) (ifMaybe .lBrace (do
        let members ← whileNotAt .rBrace (parseMember fuel) fuel
        let _ ← eat .rBrace
        return (members, ([] : List ClassDecl))) (return ([], [])))
        fun body ↦ AllSpelled (body.1.flatMap fnTexts ++ classesTexts body.2) :=
      ifMaybe_spells ((whileNotAt_spells parseMember_spells).bind fun _ h ↦
        eat_spells.bind fun _ _ ↦ .pure ((allSpelled_flatMap h).append allSpelled_nil))
        (.pure allSpelled_nil)
    have hsubclasses : Spells (fun _ ↦ True) (do
        let _ ← eat .lBrace
        let subclasses ← whileNotAt .rBrace (do
          let _ ← eat .classKw
          parseClass fuel depth false false) fuel
        let _ ← eat .rBrace
        return (([] : List FnDecl), subclasses))
        fun body ↦ AllSpelled (body.1.flatMap fnTexts ++ classesTexts body.2) := by
      refine eat_spells.bind fun _ _ ↦
        (whileNotAt_spells (eat_spells.bind fun _ _ ↦ ih false false)).bind fun subclasses h ↦
        eat_spells.bind fun _ _ ↦ .pure ?_
      rw [classesTexts_eq]
      exact allSpelled_nil.append (allSpelled_flatMap h)
    refine eatIdent_spells.bind fun name hname ↦ hparams.bind fun params hparams ↦
      hbases.bind fun bases hbases ↦ .bind_pure (Gives.imp ?_ fun body
        (hbody : AllSpelled (body.1.flatMap fnTexts ++ classesTexts body.2)) ↦ ?_)
    · exact .ite (fun _ ↦ ifAtThen_spells hsubclasses hmembers) fun _ ↦ hmembers
    · rw [classTexts, List.append_assoc]
      exact .cons hname ((hparams.append hbases).append hbody)

theorem parseMethods_spells :
    Spells pre (parseMethods fuel) fun methods ↦ AllSpelled (methods.flatMap fnTexts) :=
  eat_spells.bind fun _ _ ↦ (whileNotAt_spells (parseFn_spells false false)).bind fun _ h ↦
    eat_spells.bind fun _ _ ↦ .pure (allSpelled_flatMap h)

/-- **What the parser makes of the tokens of a declaration.** -/
theorem parseDecl_spells : Spells pre (parseDecl fuel) fun d ↦ AllSpelled (declTexts d) := by
  have hfn : ∀ isUnsafe, Spells (fun _ ↦ True) (do
      return Decl.fn (← parseFn fuel false isUnsafe)) fun d ↦ AllSpelled (declTexts d) :=
    fun isUnsafe ↦ .bind_pure ((parseFn_spells false isUnsafe).imp fun _ h ↦ h)
  have hclass : ∀ isData isSealed, Spells (fun _ ↦ True) (do
      let _ ← eat .classKw
      return Decl.classDecl (← parseClass fuel fuel isData isSealed))
      fun d ↦ AllSpelled (declTexts d) := fun isData isSealed ↦
    eat_spells.bind fun _ _ ↦ .bind_pure ((parseClass_spells isData isSealed).imp fun _ h ↦ h)
  -- a name, and functions in braces
  have hmethods : ∀ {name : String} {words : List Text}, Braceless name → AllSpelled words →
      Spells (fun _ ↦ True) (parseMethods fuel)
        fun methods ↦ AllSpelled (.word name :: (words ++ methods.flatMap fnTexts)) :=
    fun hname hwords ↦ parseMethods_spells.imp fun _ h ↦ .cons hname (hwords.append h)
  refine ifAt_spells (.bind_pure (eat_spells.bind fun _ _ ↦ .bind_pure
    (eatIdent_spells.imp fun _ h ↦ allSpelled_word h))) ?_
  refine ifAt_spells (.bind_pure parseExtern_spells) ?_
  refine ifAt_spells (hfn false) (ifAt_spells (hfn false) ?_)
  refine ifAtThen_spells (eat_spells.bind fun _ _ ↦ hfn true) ?_
  refine ifAt_spells (.bind_pure (parseInterruptAsStmt_spells.imp fun _ h ↦ h)) ?_
  refine ifAt_spells (eat_spells.bind fun _ _ ↦ hclass true false) ?_
  refine ifAt_spells (eat_spells.bind fun _ _ ↦ hclass false true) ?_
  refine ifAt_spells (hclass false false) ?_
  refine ifAt_spells ?_ (ifAt_spells ?_ (ifAt_spells ?_ ?_))
  · exact .bind_pure (eat_spells.bind fun _ _ ↦ eatIdent_spells.bind fun _ hname ↦
      .bind_pure (hmethods hname allSpelled_nil))
  · exact .bind_pure (eat_spells.bind fun _ _ ↦ eatIdent_spells.bind fun _ hname ↦
      .bind_pure (hmethods hname allSpelled_nil))
  · exact .bind_pure (eat_spells.bind fun _ _ ↦ eatIdent_spells.bind fun _ hname ↦
      eat_spells.bind fun _ _ ↦ eatIdent_spells.bind fun _ himplements ↦
      .bind_pure (hmethods hname (allSpelled_word himplements)))
  · exact .bind_pure ((parseStmt_spells fuel).imp fun _ h ↦ h)

/-! ## Programs -/

/-- **There are no braces in the words of a program that was parsed.** -/
theorem allSpelled_of_parse {src : String} {prog : Program} (hprog : parse fuel src = .ok prog) :
    AllSpelled (prog.decls.flatMap declTexts) := by
  have hparse : Spells (fun _ ↦ True) (parseProgram fuel)
      fun prog ↦ AllSpelled (prog.decls.flatMap declTexts) :=
    .bind_pure ((whileNotAt_spells parseDecl_spells).imp fun _ h ↦ allSpelled_flatMap h)
  rw [parse] at hprog
  split at hprog
  · cases hprog
  · cases hprog
  · rename_i toks htoks
    exact (hparse _ prog _ (Prod.ext hprog rfl) (wellWritten_tokenize htoks) fun _ _ ↦ trivial).2

end Agex

end Zeroxos
