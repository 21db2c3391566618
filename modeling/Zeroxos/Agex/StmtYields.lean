import Zeroxos.Agex.ExprYields

/-!
# The statements and declarations that are parsed

What holds of the expressions that the parser of agex makes of tokens of the lexer holds of all the
expressions in a statement or a declaration, and the names that a statement or a declaration brings
in are names. The pattern of a case is made of names with dots between them.
-/

namespace Zeroxos

namespace Agex

open Parse

/-- An expression that may be missing. -/
def WrittenOpt : Option Expr → Prop
  | none => True
  | some e => Written e

/-- Names with dots between them, or nothing. -/
def IsPattern (pattern : String) : Prop :=
  ∃ names : List String, (∀ name ∈ names, IsName name) ∧ pattern = join "." names

mutual

/-- The names and the expressions of a statement are what they should be. -/
def WrittenStmt : Stmt → Prop
  | .letStmt name _ init => IsName name ∧ WrittenOpt init
  | .constStmt name _ init => IsName name ∧ WrittenOpt init
  | .varStmt name _ init => IsName name ∧ WrittenOpt init
  | .assignStmt target _ value => Written target ∧ Written value
  | .returnStmt value => WrittenOpt value
  | .ifStmt cond thenBody els => Written cond ∧ WrittenStmts thenBody ∧ WrittenElse els
  | .forStmt var iter body => IsName var ∧ Written iter ∧ WrittenStmts body
  | .matchStmt expr cases => Written expr ∧ WrittenCases cases
  | .printStmt args => AllWritten args
  | .unsafeStmt body => WrittenStmts body
  | .exprStmt expr => Written expr

/-- `WrittenStmt` of each. -/
def WrittenStmts : List Stmt → Prop
  | [] => True
  | s :: l => WrittenStmt s ∧ WrittenStmts l

/-- `WrittenStmt` of each, if there are any. -/
def WrittenElse : Option (List Stmt) → Prop
  | none => True
  | some els => WrittenStmts els

/-- `WrittenCase` of each. -/
def WrittenCases : List MatchCase → Prop
  | [] => True
  | c :: l => WrittenCase c ∧ WrittenCases l

/-- The pattern, the bindings and the body of a case are what they should be. -/
def WrittenCase : MatchCase → Prop
  | .mk pattern bindings body =>
    IsPattern pattern ∧ (∀ b ∈ bindings, IsName b) ∧ WrittenStmts body

end

/-- Parameters with names. -/
def NamedParams (params : List Param) : Prop := ∀ p ∈ params, IsName p.name

/-- The names, the parameters and the body of a function are what they should be. -/
structure WrittenFn (f : FnDecl) : Prop where
  name : IsName f.name
  params : NamedParams f.params
  exprBody : WrittenOpt f.exprBody
  body : WrittenElse f.body

mutual

/-- The names and the members of a class are what they should be. -/
def WrittenClass : ClassDecl → Prop
  | .mk name _ _ params _ members subclasses =>
    IsName name ∧ NamedParams params ∧ (∀ m ∈ members, WrittenFn m) ∧ WrittenClasses subclasses

/-- `WrittenClass` of each. -/
def WrittenClasses : List ClassDecl → Prop
  | [] => True
  | c :: l => WrittenClass c ∧ WrittenClasses l

end

/-- The functions, the classes and the statements of a declaration are what they should be. -/
def WrittenDecl : Decl → Prop
  | .fn f => WrittenFn f
  | .classDecl c => WrittenClass c
  | .interface i => ∀ m ∈ i.methods, WrittenFn m
  | .object o => ∀ m ∈ o.members, WrittenFn m
  | .driver v => ∀ m ∈ v.members, WrittenFn m
  | .importDecl _ => True
  | .externDecl _ => True
  | .stmt s => WrittenStmt s

theorem writtenStmts_of_forall {l : List Stmt} (h : ∀ s ∈ l, WrittenStmt s) : WrittenStmts l := by
  induction l with
  | nil => trivial
  | cons s l ih =>
    obtain ⟨hs, hl⟩ := List.forall_mem_cons.mp h
    exact ⟨hs, ih hl⟩

theorem writtenCases_of_forall {l : List MatchCase} (h : ∀ c ∈ l, WrittenCase c) :
    WrittenCases l := by
  induction l with
  | nil => trivial
  | cons c l ih =>
    obtain ⟨hc, hl⟩ := List.forall_mem_cons.mp h
    exact ⟨hc, ih hl⟩

theorem writtenClasses_of_forall {l : List ClassDecl} (h : ∀ c ∈ l, WrittenClass c) :
    WrittenClasses l := by
  induction l with
  | nil => trivial
  | cons c l ih =>
    obtain ⟨hc, hl⟩ := List.forall_mem_cons.mp h
    exact ⟨hc, ih hl⟩

theorem WrittenClasses.forall {l : List ClassDecl} (h : WrittenClasses l) :
    ∀ c ∈ l, WrittenClass c := by
  induction l with
  | nil => exact List.forall_mem_nil _
  | cons c l ih => exact List.forall_mem_cons.mpr ⟨h.1, ih h.2⟩

variable {m n fuel depth : ℕ} {pre : Token → Prop} {ps : P Stmt}

theorem eatName_yields : Finds IsEof WellWritten n pre (eat .ident) fun t ↦ IsName t.value :=
  eat_yields.imp fun _ h ↦ h.1.name h.2

/-! ## Statements -/

section Stmt

variable (htakes : Takes m ps 1) (hps : Yields m ps WrittenStmt)

include htakes hps

theorem parseStmts_yields (hm : n ≤ m) : Yields n (parseStmts ps fuel) WrittenStmts := by
  have hcond : Takes n (ifAt .rBrace (return false) (return !(← isAt .eof))) 0 :=
    ifAt_takes (Consumes.pure _) (isAt_takes fun _ ↦ Consumes.pure _)
  have hloop : Yields n (parseStmts ps fuel) fun out ↦ ∀ s ∈ out, WrittenStmt s := by
    refine .whileLoop hcond (fun _ ↦ (htakes.le hm).bind_pure) (fun out hout ↦ .bind_pure ?_) fuel
      (List.forall_mem_nil _)
    exact hps.mono hm (fun _ h ↦ h) fun s hs ↦
      List.forall_mem_append.mpr ⟨hout, List.forall_mem_singleton.mpr hs⟩
  exact hloop.imp fun _ ↦ writtenStmts_of_forall

theorem parseBlock_yields (hm : n ≤ m + 1) (hn : n ≤ fuel) :
    Yields n (parseBlock ps fuel) WrittenStmts := by
  refine .after (eat_takes (by decide)) fun _ ↦ ?_
  exact .bind (parseStmts_takes (htakes.le (by omega)) (by omega))
    (parseStmts_yields htakes hps (by omega)) fun body hbody ↦ .before hbody

omit htakes hps in
theorem ifAssign_yields (hn : n ≤ fuel) :
    Yields n (ifMaybe .assign (return some (← parseExpr fuel)) (return none)) WrittenOpt :=
  ifMaybe_yields (by decide) (.bind_pure ((parseExpr_yields hn).imp fun _ h ↦ h)) (.pure trivial)

omit htakes hps in
theorem parseBinding_yields {kw : TokenType} {mk : String → TypeNode → Option Expr → Stmt}
    (hkw : kw ≠ .eof)
    (hmk : ∀ name ty init, IsName name → WrittenOpt init → WrittenStmt (mk name ty init))
    (hn : n ≤ fuel) : Yields n (parseBinding fuel kw mk) WrittenStmt := by
  refine .after (eat_takes hkw) fun _ ↦ .bind (eat_safe (by decide)) eatName_yields
    fun name hname ↦ ?_
  refine .after (ifMaybe_takes (by decide) (parseType_takes (by omega)) (Consumes.pure _))
    fun ty ↦ .bind_pure ((ifAssign_yields (by omega)).imp fun init hinit ↦ ?_)
  exact hmk name.value ty init hname hinit

omit htakes hps in
theorem parseReturn_yields (hn : n ≤ fuel) : Yields n (parseReturn fuel) WrittenStmt := by
  have hnone : WrittenStmt (.returnStmt none) := trivial
  refine .after (eat_takes (by decide)) fun _ ↦ ?_
  refine ifAt_yields (.pure hnone) (ifAt_yields (.pure hnone) (ifAt_yields (.pure hnone) ?_))
  exact .bind_pure ((parseExpr_yields (by omega)).imp fun _ h ↦ h)

theorem parseIf_yields (hm : n ≤ m + 1) (hn : n ≤ fuel) (hdepth : n ≤ depth) :
    Yields n (parseIf ps fuel depth) WrittenStmt := by
  induction depth generalizing n with
  | zero =>
    obtain rfl := Nat.le_zero.mp hdepth
    exact .zero
  | succ depth ih =>
    have hblock : ∀ {l}, l ≤ n → Yields l (parseBlock ps fuel) WrittenStmts :=
      fun hl ↦ parseBlock_yields htakes hps (by omega) (by omega)
    refine .after (eat_takes (by decide)) fun _ ↦ ?_
    refine .bind (parseExpr_takes (by omega)).safe (parseExpr_yields (by omega)) fun cond hcond ↦ ?_
    refine .bind (parseBlock_takes htakes (by omega) (by omega)).safe (hblock (by omega))
      fun thenBody hthen ↦ .bind_pure ?_
    have hels : Yields (n - 1 - 1 - 1) (ifMaybe .elseKw
        (ifAt .ifKw (return some [← parseIf ps fuel depth])
          (return some (← parseBlock ps fuel))) (return none)) WrittenElse := by
      refine ifMaybe_yields (by decide) (ifAt_yields (.bind_pure ?_) (.bind_pure ?_))
        (.pure trivial)
      · exact (ih (by omega) (by omega) (by omega)).imp fun s hs ↦ ⟨hs, trivial⟩
      · exact (hblock (by omega)).imp fun _ h ↦ h
    exact hels.imp fun els hels ↦ ⟨hcond, hthen, hels⟩

theorem parseFor_yields (hm : n ≤ m + 1) (hn : n ≤ fuel) :
    Yields n (parseFor ps fuel) WrittenStmt := by
  refine .after (eat_takes (by decide)) fun _ ↦ .bind (eat_safe (by decide)) eatName_yields
    fun var hvar ↦ ?_
  refine .after (eat_takes (by decide)) fun _ ↦ ?_
  refine .bind (parseExpr_takes (by omega)).safe (parseExpr_yields (by omega)) fun iter hiter ↦ ?_
  exact .bind_pure ((parseBlock_yields htakes hps (by omega) (by omega)).imp
    fun body hbody ↦ ⟨hvar, hiter, hbody⟩)

omit htakes hps in
theorem parseBindings_yields (hn : n ≤ fuel) :
    Yields n (parseBindings fuel) fun bindings ↦ ∀ b ∈ bindings, IsName b := by
  have htakes : ∀ {l}, Takes l (do return (← eat .ident).value) 1 :=
    (eat_takes (by decide)).bind_pure
  have hname : ∀ {l}, Yields l (do return (← eat .ident).value) IsName := .bind_pure eatName_yields
  refine ifMaybe_yields (by decide) ?_ (.pure (List.forall_mem_nil _))
  exact .bind (items_takes htakes (by omega)) (items_yields htakes hname) fun _ h ↦ .before h

omit htakes hps in
theorem join_concat {sep name : String} {names : List String} (h : names ≠ []) :
    join sep (names ++ [name]) = join sep names ++ sep ++ name := by
  induction names with
  | nil => exact absurd rfl h
  | cons first names ih =>
    cases names with
    | nil => rfl
    | cons second names =>
      rw [List.cons_append, List.cons_append, join, ← List.cons_append,
        ih (List.cons_ne_nil second names), join, String.append_assoc, String.append_assoc,
        String.append_assoc, String.append_assoc, String.append_assoc]

omit htakes hps in
theorem parsePattern_yields (hn : n ≤ fuel) :
    Yields n (parsePattern fuel) fun head ↦ IsPattern head.1 ∧ ∀ b ∈ head.2, IsName b := by
  refine ifAt_yields ?_ (ifAt_yields ?_ (.pure ⟨⟨[], List.forall_mem_nil _, rfl⟩, ?_⟩))
  · refine .bind (eat_safe (by decide)) eatName_yields fun first hfirst ↦ ?_
    -- the names that were eaten are joined one by one
    have hmore : Yields (n - 1) (whileLoop (do return (← maybe .dot).isSome)
        (fun pattern ↦ do return pattern ++ "." ++ (← eat .ident).value) fuel first.value)
        fun pattern ↦ ∃ names, names ≠ [] ∧ (∀ name ∈ names, IsName name)
          ∧ pattern = join "." names := by
      refine .whileLoop ?_ (fun _ ↦ (eat_takes (by decide)).bind_pure)
        (fun pattern hpattern ↦ .bind_pure (eatName_yields.imp fun name hname ↦ ?_)) fuel
        ⟨[first.value], List.cons_ne_nil _ _, List.forall_mem_singleton.mpr hfirst, rfl⟩
      · exact Safe.bind ((maybe_safe (by decide)).mono le_rfl (fun _ h ↦ h) fun _ ↦ Nat.zero_le _)
          fun _ ↦ Safe.pure _
      · obtain ⟨names, hne, hnames, rfl⟩ := hpattern
        refine ⟨names ++ [name.value], by simp, ?_, (join_concat hne).symm⟩
        exact List.forall_mem_append.mpr ⟨hnames, List.forall_mem_singleton.mpr hname⟩
    refine .bind (whileMaybe_takes (by decide) (fun _ ↦ (eat_takes (by decide)).bind_pure)
      (by omega) _) hmore fun pattern hpattern ↦ ?_
    obtain ⟨names, -, hnames, rfl⟩ := hpattern
    exact .bind_pure ((parseBindings_yields (by omega)).imp
      fun bindings hbindings ↦ ⟨⟨names, hnames, rfl⟩, hbindings⟩)
  · have hunderscore : IsName "_" := ⟨⟨'_', rfl, rfl⟩, List.all_eq_true.mp rfl, by decide⟩
    refine .after (eat_takes (by decide)) fun _ ↦ .pure ⟨⟨["_"], ?_, rfl⟩, List.forall_mem_nil _⟩
    exact List.forall_mem_singleton.mpr hunderscore
  · exact List.forall_mem_nil _

theorem parseCase_yields (hm : n ≤ m + 1) (hn : n ≤ fuel) :
    Yields n (parseCase ps fuel) WrittenCase := by
  refine .bind (parsePattern_takes hn) (parsePattern_yields hn) fun head hhead ↦ ?_
  refine .after (eat_takes (by decide)) fun _ ↦ .bind_pure ?_
  have hbody : Yields (n - 0 - 1) (ifMaybe .lBrace (do
      let body ← parseStmts ps fuel
      let _ ← eat .rBrace
      return body) (return [← ps])) WrittenStmts := by
    refine ifMaybe_yields (by decide) ?_ (.bind_pure ?_)
    · exact .bind (parseStmts_takes (htakes.le (by omega)) (by omega))
        (parseStmts_yields htakes hps (by omega)) fun body hbody ↦ .before hbody
    · exact hps.mono (by omega) (fun _ h ↦ h) fun s hs ↦ ⟨hs, trivial⟩
  exact hbody.imp fun body hbody ↦ ⟨hhead.1, hhead.2, hbody⟩

theorem parseMatch_yields (hm : n ≤ m + 1) (hn : n ≤ fuel) :
    Yields n (parseMatch ps fuel) WrittenStmt := by
  refine .after (eat_takes (by decide)) fun _ ↦ ?_
  refine .bind (parseExpr_takes (by omega)).safe (parseExpr_yields (by omega)) fun expr hexpr ↦ ?_
  refine .after (eat_takes (by decide)) fun _ ↦ ?_
  have hcase : Takes (n - 1 - 1 - 1) (parseCase ps fuel) 1 :=
    parseCase_takes htakes (by omega) (by omega)
  refine .bind (whileNotAt_takes hcase (by omega))
    (whileNotAt_yields hcase (parseCase_yields htakes hps (by omega) (by omega)))
    fun cases hcases ↦ ?_
  exact .before ⟨hexpr, writtenCases_of_forall hcases⟩

omit htakes hps in
theorem parsePrint_yields (hn : n ≤ fuel) : Yields n (parsePrint fuel) WrittenStmt := by
  refine .after (eat_takes (by decide)) fun _ ↦ .bind_pure ?_
  exact (parseArgs_yields (parseExpr_takes le_rfl) (parseExpr_yields le_rfl) (by omega)
    (by omega)).imp fun _ h ↦ h

theorem parseUnsafe_yields (hm : n ≤ m + 1) (hn : n ≤ fuel) :
    Yields n (parseUnsafe ps fuel) WrittenStmt := by
  refine .after (eat_takes (by decide)) fun _ ↦ .bind_pure ?_
  exact (parseBlock_yields htakes hps (by omega) (by omega)).imp fun _ h ↦ h

omit htakes hps in
theorem parseExprOrAssign_yields (hn : n ≤ fuel) :
    Yields n (parseExprOrAssign fuel) WrittenStmt := by
  refine .bind (parseExpr_takes hn) (parseExpr_yields hn) fun expr hexpr ↦
    .current_bind fun tok _ _ ↦ ?_
  split
  · rename_i op hop
    refine .after (eatCur_at fun heof ↦ ?_) fun _ ↦ .bind_pure ?_
    · rw [heof] at hop
      cases hop
    · exact (parseExpr_yields (by omega)).imp fun value hvalue ↦ ⟨hexpr, hvalue⟩
  · exact .pure hexpr

end Stmt

/-- **What the parser makes of the tokens of a statement.** -/
theorem parseStmt_yields (hn : n ≤ fuel) : Yields n (parseStmt fuel) WrittenStmt := by
  induction fuel generalizing n with
  | zero =>
    obtain rfl := Nat.le_zero.mp hn
    exact .zero
  | succ fuel ih =>
    have htakes : Takes fuel (parseStmt fuel) 1 := parseStmt_takes le_rfl
    have hstmt : Yields fuel (parseStmt fuel) WrittenStmt := ih le_rfl
    refine .current_bind fun tok _ _ ↦ ?_
    split
    · exact (parseBinding_yields (by decide) (fun _ _ _ h h' ↦ by exact ⟨h, h'⟩) hn).weaken
    · exact (parseBinding_yields (by decide) (fun _ _ _ h h' ↦ by exact ⟨h, h'⟩) hn).weaken
    · exact (parseBinding_yields (by decide) (fun _ _ _ h h' ↦ by exact ⟨h, h'⟩) hn).weaken
    · exact (parseReturn_yields hn).weaken
    · exact (parseIf_yields htakes hstmt hn hn hn).weaken
    · exact (parseFor_yields htakes hstmt hn hn).weaken
    · exact (parseMatch_yields htakes hstmt hn hn).weaken
    · exact (parsePrint_yields hn).weaken
    · exact (parseUnsafe_yields htakes hstmt hn hn).weaken
    · exact (parseExprOrAssign_yields hn).weaken

/-! ## Declarations -/

theorem paramRound_names (hn : n ≤ fuel) {params : List Param} (h : NamedParams params) :
    Yields n (paramRound fuel params) fun r ↦ NamedParams r.state := by
  have hmutable : Takes n (ifAt .varKw (do
      let _ ← eat .varKw
      return true) (return false)) 0 := by
    refine ifAt_takes ?_ (Consumes.pure _)
    exact (eat_takes (by decide)).bind_pure.mono le_rfl (Nat.zero_le 1)
  refine ifAt_yields (.pure h) (.after hmutable fun mutable ↦ ?_)
  refine .bind (eat_takes (by decide)) eatName_yields fun name hname ↦ ?_
  refine .after (eat_takes (by decide)) fun _ ↦ .after (parseType_takes (by omega)) fun ty ↦ ?_
  refine .after (ifAssign_takes (by omega)) fun default ↦ ?_
  have hparams : NamedParams (params ++ [⟨name.value, ty, mutable, default⟩]) :=
    List.forall_mem_append.mpr ⟨h, List.forall_mem_singleton.mpr hname⟩
  exact ifMaybe_yields (by decide) (.pure hparams) (.pure hparams)

theorem parseParams_names (hn : n ≤ fuel) : Yields n (parseParams fuel) NamedParams :=
  .loop (paramRound_safe hn) (fun _ h ↦ paramRound_names hn h) fuel (List.forall_mem_nil _)

theorem parseExprBody_yields {ty : TokenType} (hty : ty ≠ .eof) (hn : n ≤ fuel) :
    Finds IsEof WellWritten n (fun t ↦ pre t ∧ t.ty = ty) (parseExprBody fuel)
      fun body ↦ WrittenElse body.1 ∧ WrittenOpt body.2 := by
  refine .after (eatCur_safe fun _ h heof ↦ hty (h.2.symm.trans heof)) fun _ ↦ ?_
  exact .bind (parseExpr_takes (by omega)).safe (parseExpr_yields (by omega))
    fun body hbody ↦ .before ⟨trivial, hbody⟩

theorem parseFnBody_yields (hn : n ≤ fuel) :
    Yields n (parseFnBody fuel) fun body ↦ WrittenElse body.1 ∧ WrittenOpt body.2 := by
  refine isAt_yields (parseExprBody_yields (by decide) hn) ?_
  refine isAt_yields (parseExprBody_yields (by decide) hn) ?_
  refine ifAt_yields (.bind_pure ?_) (.current_bind fun _ _ _ ↦ .fail _)
  exact (parseBlock_yields (parseStmt_takes le_rfl) (parseStmt_yields le_rfl) (by omega) hn).imp
    fun body hbody ↦ ⟨hbody, trivial⟩

theorem parseFn_yields (isAsync isUnsafe : Bool) (hn : n ≤ fuel) :
    Yields n (parseFn fuel isAsync isUnsafe) WrittenFn := by
  refine .after (j := 0) (ite_takes ?_ (Consumes.pure _)) fun _ ↦ ?_
  · exact (eat_takes (by decide)).bind_pure.mono le_rfl (Nat.zero_le 1)
  refine .after (eat_takes (by decide)) fun _ ↦ ?_
  refine .after (j := 0) (ifAtThen_takes ?_ (Consumes.pure _)) fun receiver ↦ ?_
  · refine .bind (eat_takes (by decide)) fun _ ↦ ?_
    exact (eat_takes (by decide)).bind_pure.mono le_rfl (by omega)
  refine .bind (eat_takes (by decide)) eatName_yields fun name hname ↦ ?_
  have hparams : Yields (n - 0 - 1 - 0 - 1) (parseSignature fuel)
      fun signature ↦ NamedParams signature.1 := by
    refine .after (eat_takes (by decide)) fun _ ↦ ?_
    refine .bind (parseParams_takes (by omega)) (parseParams_names (by omega))
      fun params hparams ↦ ?_
    exact .after (eat_takes (by decide)) fun _ ↦ .bind_pure (Finds.trivial.imp fun _ _ ↦ hparams)
  refine .bind (parseSignature_takes (by omega)) hparams fun signature hsignature ↦ .bind_pure ?_
  exact (parseFnBody_yields (by omega)).imp fun body hbody ↦
    ⟨hname, hsignature, hbody.2, hbody.1⟩

theorem parseMember_yields (hn : n ≤ fuel) : Yields n (parseMember fuel) WrittenFn :=
  ifAt_yields (parseFn_yields false false hn) (.current_bind fun _ _ _ ↦ .fail _)

theorem parseClass_written (hn : n ≤ fuel) (hdepth : n ≤ depth) (isData isSealed : Bool) :
    Yields n (parseClass fuel depth isData isSealed) WrittenClass := by
  induction depth generalizing n isData isSealed with
  | zero =>
    obtain rfl := Nat.le_zero.mp hdepth
    exact .zero
  | succ depth ih =>
    refine .bind (eat_takes (by decide)) eatName_yields fun name hname ↦ ?_
    have hparams : Yields (n - 1) (ifMaybe .lParen (do
        let params ← parseParams fuel
        let _ ← eat .rParen
        return params) (return [])) NamedParams := by
      refine ifMaybe_yields (by decide) ?_ (.pure (List.forall_mem_nil _))
      exact .bind (parseParams_takes (by omega)) (parseParams_names (by omega))
        fun params h ↦ .before h
    refine .bind (classParams_takes (by omega)) hparams fun params hparams ↦ ?_
    refine .after (classBases_takes (by omega)) fun bases ↦ ?_
    have hmembers : Yields (n - 1 - 0 - 0) (ifMaybe .lBrace (do
        let members ← whileNotAt .rBrace (parseMember fuel) fuel
        let _ ← eat .rBrace
        return (members, ([] : List ClassDecl))) (return ([], [])))
        fun body ↦ (∀ f ∈ body.1, WrittenFn f) ∧ WrittenClasses body.2 := by
      refine ifMaybe_yields (by decide) ?_ (.pure ⟨List.forall_mem_nil _, trivial⟩)
      exact .bind (whileNotAt_takes (parseMember_takes (by omega)) (by omega))
        (whileNotAt_yields (parseMember_takes (by omega)) (parseMember_yields (by omega)))
        fun members h ↦ .before ⟨h, trivial⟩
    refine .bind_pure (Finds.imp ?_ fun body
      (hbody : (∀ f ∈ body.1, WrittenFn f) ∧ WrittenClasses body.2) ↦
        ⟨hname, hparams, hbody.1, hbody.2⟩)
    split_ifs with hsealed
    · refine ifAtThen_yields ?_ hmembers
      have hclass : Takes (n - 1 - 0 - 0 - 1 - 1) (parseClass fuel depth false false) 0 :=
        (parseClass_takes (by omega) (by omega) false false).mono le_rfl (Nat.zero_le 1)
      have hitem : Takes (n - 1 - 0 - 0 - 1) (do
          let _ ← eat .classKw
          parseClass fuel depth false false) 1 := .bind (eat_takes (by decide)) fun _ ↦ hclass
      have hyields : Yields (n - 1 - 0 - 0 - 1) (do
          let _ ← eat .classKw
          parseClass fuel depth false false) WrittenClass :=
        .after (eat_takes (by decide)) fun _ ↦ ih (by omega) (by omega) false false
      refine .after (eat_takes (by decide)) fun _ ↦ ?_
      exact .bind (whileNotAt_takes hitem (by omega)) (whileNotAt_yields hitem hyields)
        fun subclasses h ↦ .before ⟨List.forall_mem_nil _, writtenClasses_of_forall h⟩
    · exact hmembers

theorem parseMethods_yields (hn : n ≤ fuel) :
    Yields n (parseMethods fuel) fun methods ↦ ∀ f ∈ methods, WrittenFn f := by
  refine .after (eat_takes (by decide)) fun _ ↦ ?_
  exact .bind (whileNotAt_takes (parseFn_takes false false (by omega)) (by omega))
    (whileNotAt_yields (parseFn_takes false false (by omega))
      (parseFn_yields false false (by omega)))
    fun methods h ↦ .before h

theorem parseInterruptAsStmt_yields (hn : n ≤ fuel) :
    Yields n (parseInterruptAsStmt fuel) WrittenStmt := by
  refine .after (eat_takes (by decide)) fun _ ↦ .after (eat_takes (by decide)) fun _ ↦ ?_
  refine .after (eat_takes (by decide)) fun _ ↦ .after (eat_takes (by decide)) fun _ ↦ ?_
  exact .bind_pure ((parseBlock_yields (parseStmt_takes le_rfl) (parseStmt_yields le_rfl) (by omega)
    (by omega)).imp fun _ h ↦ h)

/-- **What the parser makes of the tokens of a declaration.** -/
theorem parseDecl_written (hn : n ≤ fuel) : Yields n (parseDecl fuel) WrittenDecl := by
  have hclass : ∀ {l} (isData isSealed : Bool), l ≤ n →
      Yields l (eat .classKw >>= fun _ ↦ do
        return Decl.classDecl (← parseClass fuel fuel isData isSealed)) WrittenDecl := by
    intro l isData isSealed hl
    refine .after (eat_takes (by decide)) fun _ ↦ .bind_pure ?_
    exact (parseClass_written (by omega) (by omega) isData isSealed).imp fun _ h ↦ h
  have hfn : ∀ {l} (isAsync isUnsafe : Bool), l ≤ n →
      Yields l (do return Decl.fn (← parseFn fuel isAsync isUnsafe)) WrittenDecl :=
    fun isAsync isUnsafe hl ↦ .bind_pure ((parseFn_yields isAsync isUnsafe (by omega)).imp
      fun _ h ↦ h)
  refine ifAt_yields (.bind_pure (Finds.trivial.imp fun _ _ ↦ trivial)) ?_
  refine ifAt_yields (.bind_pure (Finds.trivial.imp fun _ _ ↦ trivial)) ?_
  refine ifAt_yields (hfn _ _ le_rfl) (ifAt_yields (hfn _ _ le_rfl) ?_)
  refine ifAtThen_yields (.after (eat_takes (by decide)) fun _ ↦ hfn _ _ (by omega)) ?_
  refine ifAt_yields (.bind_pure ((parseInterruptAsStmt_yields hn).imp fun _ h ↦ h)) ?_
  refine ifAt_yields (.after (eat_takes (by decide)) fun _ ↦ hclass true false (by omega)) ?_
  refine ifAt_yields (.after (eat_takes (by decide)) fun _ ↦ hclass false true (by omega)) ?_
  refine ifAt_yields (hclass false false le_rfl) ?_
  refine ifAt_yields (.bind_pure ?_) (ifAt_yields (.bind_pure ?_) (ifAt_yields (.bind_pure ?_) ?_))
  · refine .after (eat_takes (by decide)) fun _ ↦ .after (eat_takes (by decide)) fun name ↦ ?_
    exact .bind_pure ((parseMethods_yields (by omega)).imp fun _ h ↦ h)
  · refine .after (eat_takes (by decide)) fun _ ↦ .after (eat_takes (by decide)) fun name ↦ ?_
    exact .bind_pure ((parseMethods_yields (by omega)).imp fun _ h ↦ h)
  · refine .after (eat_takes (by decide)) fun _ ↦ .after (eat_takes (by decide)) fun name ↦ ?_
    refine .after (eat_takes (by decide)) fun _ ↦ .after (eat_takes (by decide)) fun _ ↦ ?_
    exact .bind_pure ((parseMethods_yields (by omega)).imp fun _ h ↦ h)
  · exact .bind_pure ((parseStmt_yields hn).imp fun _ h ↦ h)

/-! ## Programs -/

/-- **What the parser makes of a source.** -/
theorem written_of_parse {src : String} {toks : List Token}
    (htoks : tokenize src = some (.ok toks)) {fuel : ℕ} (hfuel : toks.length ≤ fuel)
    {prog : Program} (hprog : parse fuel src = .ok prog) : ∀ d ∈ prog.decls, WrittenDecl d :=
  forall_decls_of_parse (parseDecl_written hfuel) htoks hfuel hprog

end Agex

end Zeroxos
