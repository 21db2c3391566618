import Zeroxos.Agex.Receiver
import Zeroxos.Agex.ExprContext

/-!
# Fields and locals

In a method a name that is a field is written with `self.` in front of it. The generator keeps one
list of fields for the whole method and knows nothing of parameters, declarations, loop variables
and bindings, so a local with the name of a field is written as the field.

## Occurrences

`FnDecl.places` lists the expressions in the body of a function with the names that are locals where
they stand, and an occurrence of a name is a path from such an expression to it. What is written for
the name stands at one place in the text of the method, which the path determines
(`namesAround`, `shows_of_fate`).

## The condition

Where the generator writes a name, it is as what the name stands for exactly when the name is not a
local and a field at once; in an extension function, which knows no fields, exactly when a field is
hidden by a local (`field_scope_iff`). Names that are left out, and those of sealed classes, have
conditions of their own (`ScopesApart`).
-/

namespace Zeroxos

namespace Agex

/-! ## Locals -/

/-- An expression of a statement, with the locals there. -/
structure Place where
  locals : List String
  /-- the variable, if the expression is what a loop goes over -/
  loopVar : Option String
  expr : Expr

/-- What is written for the expression. -/
def Place.text (s : Scope) (p : Place) : String :=
  match p.loopVar with
  | some var => forHead var p.expr s
  | none => genExpr s p.expr

/-- The name that a statement declares for the rest of its block. -/
def Stmt.declares : Stmt → List String
  | .letStmt name _ _ => [name]
  | .constStmt name _ _ => [name]
  | .varStmt name _ _ => [name]
  | _ => []

/-- An expression, if there is one. -/
def optPlaces (locals : List String) (e : Option Expr) : List Place :=
  e.toList.map fun e ↦ ⟨locals, none, e⟩

mutual

/-- The expressions in a statement, at any depth. -/
def stmtPlaces (locals : List String) : Stmt → List Place
  | .letStmt _ _ init => optPlaces locals init
  | .constStmt _ _ init => optPlaces locals init
  | .varStmt _ _ init => optPlaces locals init
  | .assignStmt target _ value => [⟨locals, none, target⟩, ⟨locals, none, value⟩]
  | .returnStmt value => optPlaces locals value
  | .ifStmt cond thenBody els =>
    ⟨locals, none, cond⟩ :: (stmtsPlaces locals thenBody ++ elsePlaces locals els)
  | .forStmt var iter body => ⟨locals, some var, iter⟩ :: stmtsPlaces (var :: locals) body
  | .matchStmt expr cases => ⟨locals, none, expr⟩ :: casesPlaces locals cases
  | .printStmt args => args.map fun e ↦ ⟨locals, none, e⟩
  | .unsafeStmt body => stmtsPlaces locals body
  | .exprStmt expr => [⟨locals, none, expr⟩]

/-- The expressions in a block: what a statement declares is a local behind it. -/
def stmtsPlaces (locals : List String) : List Stmt → List Place
  | [] => []
  | st :: l => stmtPlaces locals st ++ stmtsPlaces (st.declares ++ locals) l

/-- The expressions in the other branch of an `if`. -/
def elsePlaces (locals : List String) : Option (List Stmt) → List Place
  | none => []
  | some els => stmtsPlaces locals els

/-- The expressions in the cases of a `match`. -/
def casesPlaces (locals : List String) : List MatchCase → List Place
  | [] => []
  | c :: l => casePlaces locals c ++ casesPlaces locals l

/-- The expressions in the body of a case, where the bindings are locals. -/
def casePlaces (locals : List String) : MatchCase → List Place
  | .mk _ bindings body => stmtsPlaces (bindings ++ locals) body

end

/-- The expressions in the body of a function, where the parameters are locals. -/
def FnDecl.places (f : FnDecl) : List Place :=
  let locals := f.params.map Param.name
  optPlaces locals f.exprBody ++ elsePlaces locals f.body

/-! ## What is written for a name -/

/-- What becomes of a name in an expression. -/
inductive Fate
  /-- `gen_expr` writes it -/
  | generated
  /-- it is written as it is, for the sealed class of a variant -/
  | verbatim
  /-- it is not written: it is left out, or stands for `range` or `println` -/
  | unwritten
deriving DecidableEq, Repr

instance (s : Scope) (k : Layer) : Decidable (k.Drops s) :=
  match k with
  | .callArg f pre _ => inferInstanceAs (Decidable (f.ident? = some "range" ∧ pre ≠ []))
  | .methodArg object name _ _ => inferInstanceAs (Decidable (isRenamed name = true ∧
      Layer.variantFields s object name = none))
  | .binaryLeft _ _ => isFalse id
  | .binaryRight _ _ => isFalse id
  | .unary _ => isFalse id
  | .callee _ => isFalse id
  | .recv _ _ => isFalse id
  | .fieldRecv _ => isFalse id
  | .safeRecv _ _ => isFalse id
  | .safeArg _ _ _ _ => isFalse id
  | .elvisLeft _ => isFalse id
  | .elvisRight _ => isFalse id
  | .newArg _ _ _ => isFalse id
  | .cast _ => isFalse id

/-- The fate of a name at the end of a path. -/
def fate (s : Scope) (ks : List Layer) (x : String) : Fate :=
  if ∃ k ∈ ks, k.Drops s then .unwritten
  else
    match ks.getLast? with
    | some (.callee _) => if x = "range" ∨ x = "println" then .unwritten else .generated
    | some (.recv name _) =>
      if (sealedFields s.sealedClasses x name).isSome then .verbatim else .generated
    | _ => .generated

/-- What is written for the name, if it is. -/
def Fate.text (s : Scope) (x : String) : Fate → Option String
  | .generated => some (genExpr s (.ident x))
  | .verbatim => some x
  | .unwritten => none

/-! ## It stands in the output -/

/-- The text stands in one of the lines. -/
def Shows (lines : List Line) (text : String) : Prop :=
  ∃ p q, ∃ j, (j, p ++ text ++ q) ∈ lines

theorem shows_line {j : ℕ} {line text : String} (p q : String) (h : line = p ++ text ++ q) :
    Shows [(j, line)] text := ⟨p, q, j, h ▸ List.mem_singleton_self _⟩

namespace Shows

variable {k l : List Line} {text : String}

theorem deeper (h : Shows l text) : Shows (deeper l) text := by
  obtain ⟨p, q, h⟩ := h
  exact ⟨p, q, exists_mem_deeper h⟩

theorem braced (head : String) (h : Shows l text) : Shows (braced head l) text := by
  obtain ⟨p, q, h⟩ := h
  exact ⟨p, q, exists_mem_braced h⟩

theorem left (h : Shows k text) : Shows (k ++ l) text := by
  obtain ⟨p, q, h⟩ := h
  exact ⟨p, q, exists_mem_append (.inl h)⟩

theorem right (h : Shows l text) : Shows (k ++ l) text := by
  obtain ⟨p, q, h⟩ := h
  exact ⟨p, q, exists_mem_append (.inr h)⟩

theorem head {line : String} (h : Shows [(0, line)] text) :
    Shows (Agex.braced line l) text := Shows.left (k := [_]) h

end Shows

variable {s : Scope} {locals : List String} {p : Place}

theorem of_mem_optPlaces {e : Option Expr} (h : p ∈ optPlaces locals e) :
    ∃ init, e = some init ∧ p = ⟨locals, none, init⟩ := by
  obtain ⟨init, hinit, rfl⟩ := List.mem_map.mp h
  exact ⟨init, Option.mem_toList.mp hinit, rfl⟩

theorem genBinding_shows (name : String) (ty : TypeNode) (init : Expr) (s : Scope) :
    ∃ p, genBinding name ty init s = p ++ genExpr s init ++ ";" := by
  rw [genBinding]
  split_ifs
  · exact ⟨name ++ " = ", rfl⟩
  · exact ⟨name ++ ": " ++ genType ty ++ " = ", rfl⟩

theorem letLine_shows (keyword name : String) (ty : TypeNode) (init : Expr) (s : Scope) :
    Shows [(0, letLine s keyword name ty (some init))] (genExpr s init) := by
  obtain ⟨p, hp⟩ := genBinding_shows name ty init s
  refine shows_line (keyword ++ p) ";" ?_
  rw [letLine, hp]
  simp only [String.append_assoc]

theorem constLine_shows (name : String) (ty : TypeNode) (init : Expr) (s : Scope) :
    Shows [(0, constLine s name ty (some init))] (genExpr s init) := by
  rw [constLine]
  dsimp only [Option.map_some, Option.getD_some]
  split_ifs
  · exact shows_line ("let " ++ name ++ ": _ = ") ";" rfl
  · exact shows_line ("const " ++ name ++ ": " ++ genType ty ++ " = ") ";" rfl

theorem printLine_shows {args : List Expr} {e : Expr} (he : e ∈ args) (hs : e.isString = false)
    (s : Scope) : Shows [(0, printlnText args (genExprs s args) ++ ";")] (genExpr s e) := by
  obtain ⟨pre, post, rfl⟩ := List.append_of_mem he
  obtain ⟨p, q, hpq⟩ := println_around s false (fun _ ↦ True) pre post
  have htext := hpq e hs trivial
  dsimp only at htext
  refine shows_line p (q ++ ";") ?_
  rw [htext, argText_of_not_string hs, String.append_assoc]

mutual

/-- **Every expression** of a statement stands in a line of it. -/
theorem stmtPlaces_shown (s : Scope) {locals : List String} {p : Place}
    (hp : p.expr.isString = false) :
    (st : Stmt) → p ∈ stmtPlaces locals st → Shows (stmtLines s st) (p.text s)
  | .letStmt name ty init, h => by
    obtain ⟨init, rfl, rfl⟩ := of_mem_optPlaces h
    rw [stmtLines]
    exact letLine_shows _ _ _ _ _
  | .constStmt name ty init, h => by
    obtain ⟨init, rfl, rfl⟩ := of_mem_optPlaces h
    rw [stmtLines]
    exact constLine_shows _ _ _ _
  | .varStmt name ty init, h => by
    obtain ⟨init, rfl, rfl⟩ := of_mem_optPlaces h
    rw [stmtLines]
    exact letLine_shows _ _ _ _ _
  | .assignStmt target op value, h => by
    rw [stmtLines, assignLine]
    rcases List.mem_pair.mp h with rfl | rfl
    · refine shows_line "" (" " ++ op.text ++ " " ++ genExpr s value ++ ";") ?_
      rw [Place.text, String.empty_append]
      simp only [String.append_assoc]
    · exact shows_line (genExpr s target ++ " " ++ op.text ++ " ") ";" rfl
  | .returnStmt value, h => by
    obtain ⟨value, rfl, rfl⟩ := of_mem_optPlaces h
    rw [stmtLines]
    exact shows_line "return " ";" rfl
  | .ifStmt cond thenBody els, h => by
    rw [stmtPlaces, List.mem_cons, List.mem_append] at h
    rw [stmtLines]
    rcases h with rfl | h | h
    · exact Shows.left (k := [_]) (shows_line "if " " \x7b" rfl)
    · exact Shows.right (k := [_]) (stmtsPlaces_shown s hp thenBody h).deeper.left
    · exact Shows.right (k := [_]) (elsePlaces_shown s hp els h).left.right
  | .forStmt var iter body, h => by
    rw [stmtPlaces, List.mem_cons] at h
    rw [stmtLines]
    rcases h with rfl | h
    · refine .head (shows_line "" "" ?_)
      rw [String.empty_append, String.append_empty]
      rfl
    · exact .braced _ (stmtsPlaces_shown s hp body h)
  | .matchStmt expr cases, h => by
    rw [stmtPlaces, List.mem_cons] at h
    rw [stmtLines]
    rcases h with rfl | h
    · exact .head (shows_line "match " " \x7b" rfl)
    · exact .braced _ (casesPlaces_shown s hp cases h).left
  | .printStmt args, h => by
    obtain ⟨e, he, rfl⟩ := List.mem_map.mp h
    rw [stmtLines]
    exact printLine_shows he hp s
  | .unsafeStmt body, h => by
    rw [stmtPlaces] at h
    rw [stmtLines]
    exact .braced _ (stmtsPlaces_shown s hp body h)
  | .exprStmt expr, h => by
    rw [stmtPlaces, List.mem_singleton] at h
    subst h
    rw [stmtLines]
    refine shows_line "" ";" ?_
    rw [String.empty_append]
    rfl

theorem stmtsPlaces_shown (s : Scope) {locals : List String} {p : Place}
    (hp : p.expr.isString = false) :
    (l : List Stmt) → p ∈ stmtsPlaces locals l → Shows (stmtsLines s l) (p.text s)
  | [], h => absurd h List.not_mem_nil
  | st :: l, h => by
    rw [stmtsPlaces, List.mem_append] at h
    rcases h with h | h
    · exact (stmtPlaces_shown s hp st h).left
    · exact (stmtsPlaces_shown s hp l h).right

theorem elsePlaces_shown (s : Scope) {locals : List String} {p : Place}
    (hp : p.expr.isString = false) :
    (els : Option (List Stmt)) → p ∈ elsePlaces locals els → Shows (elseLines s els) (p.text s)
  | none, h => absurd h List.not_mem_nil
  | some els, h => Shows.right (k := [_]) (stmtsPlaces_shown s hp els h).deeper

theorem casesPlaces_shown (s : Scope) {locals : List String} {p : Place}
    (hp : p.expr.isString = false) :
    (cases : List MatchCase) → p ∈ casesPlaces locals cases → Shows (casesLines s cases) (p.text s)
  | [], h => absurd h List.not_mem_nil
  | c :: l, h => by
    rw [casesPlaces, List.mem_append] at h
    rcases h with h | h
    · exact (casePlaces_shown s hp c h).left
    · exact (casesPlaces_shown s hp l h).right

theorem casePlaces_shown (s : Scope) {locals : List String} {p : Place}
    (hp : p.expr.isString = false) :
    (c : MatchCase) → p ∈ casePlaces locals c → Shows (caseLines s c) (p.text s)
  | .mk _ _ body, h => .braced _ (stmtsPlaces_shown s hp body h)

end

theorem places_shown (s : Scope) {f : FnDecl} (h : p ∈ f.places) (hp : p.expr.isString = false) :
    Shows (bodyLines s f) (p.text s) := by
  rw [FnDecl.places, List.mem_append] at h
  rw [bodyLines]
  rcases h with h | h
  · obtain ⟨e, he, rfl⟩ := of_mem_optPlaces h
    rw [he]
    refine Shows.left (shows_line "" "" ?_)
    rw [String.empty_append, String.append_empty]
    rfl
  · refine Shows.right ?_
    cases hbody : f.body with
    | none =>
      rw [hbody] at h
      exact absurd h List.not_mem_nil
    | some body =>
      rw [hbody] at h
      exact stmtsPlaces_shown s hp body h

theorem text_of_no_range (s : Scope) (locals : List String) (loopVar : Option String) :
    ∃ q r, ∀ e, e.rangeArgs? = none →
      (Place.mk locals loopVar e).text s = q ++ genExpr s e ++ r := by
  cases loopVar with
  | none =>
    refine ⟨"", "", fun e _ ↦ ?_⟩
    rw [String.empty_append, String.append_empty]
    rfl
  | some var =>
    refine ⟨"for " ++ var ++ " in ", " \x7b", fun e h ↦ ?_⟩
    rw [Place.text]
    dsimp only
    rw [forHead_eq, rangeText, h]
    rfl

theorem text_around (loopVar : Option String) (k : Layer) (hk : ¬k.Drops s) (b : Bool) :
    Around s b (fun e ↦ ¬k.Consumes s e) fun e ↦ (Place.mk locals loopVar (k.fill e)).text s := by
  cases loopVar with
  | none => exact k.text hk b
  | some var => exact k.head hk b var

/-- What no layer of a path drops stands in what is written for the whole. -/
theorem exists_plug_text {ks : List Layer} (hks : ∀ k ∈ ks, ¬k.Drops s) (locals : List String)
    (loopVar : Option String) :
    ∃ q r, ∀ e, e.isString = false → e.ident? = none → e.rangeArgs? = none →
      (Place.mk locals loopVar (plug ks e)).text s = q ++ genExpr s e ++ r := by
  rcases List.eq_nil_or_concat ks with rfl | ⟨ks, k, rfl⟩
  · obtain ⟨q, r, htext⟩ := text_of_no_range s locals loopVar
    exact ⟨q, r, fun e _ _ hrange ↦ htext e hrange⟩
  · rw [List.concat_eq_append] at hks ⊢
    obtain ⟨q, r, htext⟩ := path_around (T := fun e ↦ (Place.mk locals loopVar e).text s)
      (text_around loopVar) hks false
    refine ⟨q, r, fun e hstring hident _ ↦ ?_⟩
    rw [← argText_of_not_string hstring]
    exact htext e hstring (k.not_consumes hident)

/-- The names that are generated in one place stand between the same two texts, and those that are
verbatim there begin where these begin. -/
def NamesAround (s : Scope) (locals : List String) (loopVar : Option String) (ks : List Layer) :
    Prop :=
  ∃ q r, (∀ x, fate s ks x = .generated →
      (Place.mk locals loopVar (plug ks (.ident x))).text s = q ++ genExpr s (.ident x) ++ r) ∧
    ∀ x, fate s ks x = .verbatim →
      ∃ r', (Place.mk locals loopVar (plug ks (.ident x))).text s = q ++ x ++ r'

theorem namesAround_recv {ks : List Layer} (name : String) (args : List Expr)
    (hks : ∀ k ∈ ks ++ [.recv name args], ¬k.Drops s) (locals : List String)
    (loopVar : Option String) : NamesAround s locals loopVar (ks ++ [.recv name args]) := by
  obtain ⟨q, r, htext⟩ := exists_plug_text (fun k hk ↦ hks k (List.mem_append_left _ hk)) locals
    loopVar
  obtain ⟨call, hcall⟩ := methodText_eq_append name (genExprs s args)
  have hfate : ∀ x, fate s (ks ++ [.recv name args]) x
      = if (sealedFields s.sealedClasses x name).isSome then .verbatim else .generated := by
    intro x
    rw [fate, if_neg fun ⟨k, hk, hdrop⟩ ↦ hks k hk hdrop, List.getLast?_concat]
  have hplug : ∀ x, plug (ks ++ [.recv name args]) (.ident x)
      = plug ks (.method (.ident x) name args) := fun x ↦ plug_append _ _ _
  refine ⟨q, call ++ r, fun x hx ↦ ?_, fun x hx ↦ ?_⟩
  · rw [hfate] at hx
    split_ifs at hx with hvariant
    have hnone : Layer.variantFields s (.ident x) name = none :=
      Option.not_isSome_iff_eq_none.mp hvariant
    rw [hplug, htext _ rfl rfl rfl, genExpr_method hnone, hcall]
    simp only [String.append_assoc]
  · rw [hfate] at hx
    split_ifs at hx with hvariant
    -- the class stands in front of its variant
    obtain ⟨fields, hfields⟩ := Option.isSome_iff_exists.mp hvariant
    refine ⟨"::" ++ name ++ " \x7b " ++ join ", " ((genExprs s args).mapIdx fun i arg ↦
      fieldName fields i ++ ": " ++ arg) ++ " \x7d" ++ r, ?_⟩
    have hmethod : genExpr s (.method (.ident x) name args)
        = variantText x name fields (genExprs s args) := by
      have hlookup : ((Expr.ident x).ident?.bind fun enumName ↦
          sealedFields s.sealedClasses enumName name) = some fields := hfields
      rw [genExpr, hlookup]
      rfl
    rw [hplug, htext _ rfl rfl rfl, hmethod, variantText]
    simp only [String.append_assoc]

/-- **Where a name stands** does not depend on the name. -/
theorem namesAround (s : Scope) (locals : List String) (loopVar : Option String)
    (ks : List Layer) : NamesAround s locals loopVar ks := by
  by_cases hdrop : ∃ k ∈ ks, k.Drops s
  · have hfate : ∀ x, fate s ks x = .unwritten := fun x ↦ by rw [fate, if_pos hdrop]
    refine ⟨"", "", fun x hx ↦ ?_, fun x hx ↦ ?_⟩
    · rw [hfate] at hx
      cases hx
    · rw [hfate] at hx
      cases hx
  have hkept : ∀ k ∈ ks, ¬k.Drops s := fun k hk hd ↦ hdrop ⟨k, hk, hd⟩
  rcases List.eq_nil_or_concat ks with rfl | ⟨ks, k, rfl⟩
  · obtain ⟨q, r, htext⟩ := text_of_no_range s locals loopVar
    refine ⟨q, r, fun x _ ↦ htext _ rfl, fun x hx ↦ ?_⟩
    rw [fate, if_neg hdrop] at hx
    cases hx
  rw [List.concat_eq_append] at hkept hdrop ⊢
  obtain ⟨q, r, htext⟩ := path_around (T := fun e ↦ (Place.mk locals loopVar e).text s)
    (text_around loopVar) hkept false
  have haround : (∀ x, fate s (ks ++ [k]) x = .generated → ¬k.Consumes s (.ident x)) →
      (∀ x, fate s (ks ++ [k]) x ≠ .verbatim) → NamesAround s locals loopVar (ks ++ [k]) :=
    fun hgenerated hverbatim ↦
      ⟨q, r, fun x hx ↦ htext _ rfl (hgenerated x hx), fun x hx ↦ absurd hx (hverbatim x)⟩
  have hfate : ∀ x, fate s (ks ++ [k]) x = match some k with
      | some (.callee _) => if x = "range" ∨ x = "println" then .unwritten else .generated
      | some (.recv name _) =>
        if (sealedFields s.sealedClasses x name).isSome then .verbatim else .generated
      | _ => .generated := by
    intro x
    rw [fate, if_neg hdrop, List.getLast?_concat]
  cases k with
  | recv name args => exact namesAround_recv name args hkept locals loopVar
  | callee args =>
    refine haround (fun x hx hc ↦ ?_) fun x hx ↦ ?_
    · have hname : x = "range" ∨ x = "println" := hc.imp Option.some.inj Option.some.inj
      rw [hfate, if_pos hname] at hx
      cases hx
    · rw [hfate] at hx
      dsimp only at hx
      split_ifs at hx
  | _ =>
    refine haround (fun x _ hc ↦ hc) fun x hx ↦ ?_
    rw [hfate] at hx
    cases hx

/-- **In the body of a function** what is written for an expression stands in a line, and the names
in it stand where they do whatever they are. -/
theorem shows_of_fate {f : FnDecl} (hp : p ∈ f.places) {ks : List Layer} {x : String}
    (hx : p.expr = plug ks (.ident x)) :
    Shows (bodyLines s f) (p.text s) ∧ NamesAround s p.locals p.loopVar ks := by
  refine ⟨places_shown s hp ?_, namesAround _ _ _ _⟩
  rw [hx]
  cases ks with
  | nil => rfl
  | cons k ks => exact k.fill_isString _

/-! ## Methods -/

/-- The members of a class are written, unless it is a sealed class with subclasses. -/
def ClassDecl.writesMembers : ClassDecl → Bool
  | .mk _ _ isSealed _ _ _ subclasses => !(isSealed && !subclasses.isEmpty)

/-- The members that are written stand in the `impl` of the class. -/
theorem fnLines_mem_classLines (L : List SealedClass) {c : ClassDecl} (h : c.writesMembers = true)
    {m : FnDecl} (hm : m ∈ c.members) :
    ∀ line ∈ fnLines L m true c.fieldNames, (line.1 + 1, line.2) ∈ classLines L c := by
  obtain ⟨name, isData, isSealed, params, bases, members, subclasses⟩ := c
  intro line hline
  have hmember : line ∈ memberLines L params members := List.mem_flatMap.mpr ⟨m, hm, hline⟩
  have hstruct : ∀ rest : List Line, line ∈ rest →
      (line.1 + 1, line.2) ∈ structLines name params rest := by
    intro rest hrest
    rw [structLines, braced, braced]
    refine List.mem_append_right _ (List.mem_cons_of_mem _ (List.mem_append_left _ ?_))
    exact List.mem_map_of_mem (List.mem_append_right _ hrest)
  rw [classLines]
  split_ifs with hsealed
  · rw [ClassDecl.writesMembers, hsealed] at h
    cases h
  · refine List.mem_cons_of_mem _ (List.mem_append_left _ (hstruct _ ?_))
    exact List.mem_append_right _ hmember
  · exact hstruct _ hmember

variable (L : List SealedClass) (c : ClassDecl) (m : FnDecl)

/-- What the generator knows in the body of a method. -/
def methodScope : Scope := ⟨bodyFields m true c.fieldNames, L⟩

/-- What becomes of a name in the body of a method. -/
def memberFate (ks : List Layer) (x : String) : Fate :=
  if c.writesMembers then fate (methodScope L c m) ks x else .unwritten

/-- What is written for it. -/
def memberText (ks : List Layer) (x : String) : Option String :=
  (memberFate L c m ks x).text (methodScope L c m) x

/-- A name is written as a field of `self` exactly where it is one and no local, and where it is a
local it is written as it is. -/
def ScopesRespected : Prop :=
  ∀ p ∈ m.places, ∀ ks x, p.expr = plug ks (.ident x) →
    (memberText L c m ks x = some ("self." ++ x) ↔ x ∈ c.fieldNames ∧ x ∉ p.locals) ∧
      (x ∈ p.locals → memberText L c m ks x = some x)

/-- No local has the name of a field where it is used; for an extension function every field that
is used has the name of a local. The names that are not written are neither, and a sealed class
that is used for a variant has not the name of a field, or that of a local too. -/
def ScopesApart : Prop :=
  ∀ p ∈ m.places, ∀ ks x, p.expr = plug ks (.ident x) →
    match memberFate L c m ks x with
    | .generated => x ∈ c.fieldNames → (x ∈ p.locals ↔ m.receiver.isSome = true)
    | .verbatim => x ∈ c.fieldNames → x ∈ p.locals
    | .unwritten => x ∉ c.fieldNames ∧ x ∉ p.locals

variable {L c m}

theorem self_append_ne (x : String) : "self." ++ x ≠ x := by
  intro h
  have hlength := congrArg String.length h
  rw [String.length_append] at hlength
  exact absurd hlength (by simp)

theorem genExpr_ident_method (x : String) : genExpr (methodScope L c m) (.ident x)
    = if m.receiver.isNone && c.fieldNames.contains x then "self." ++ x else x := by
  rw [genExpr, methodScope, bodyFields]
  cases m.receiver <;> rfl

theorem scope_iff (locals : List String) (ks : List Layer) (x : String) :
    ((memberText L c m ks x = some ("self." ++ x) ↔ x ∈ c.fieldNames ∧ x ∉ locals) ∧
        (x ∈ locals → memberText L c m ks x = some x)) ↔
      match memberFate L c m ks x with
      | .generated => x ∈ c.fieldNames → (x ∈ locals ↔ m.receiver.isSome = true)
      | .verbatim => x ∈ c.fieldNames → x ∈ locals
      | .unwritten => x ∉ c.fieldNames ∧ x ∉ locals := by
  have hne : "self." ++ x ≠ x := self_append_ne x
  rw [memberText]
  cases memberFate L c m ks x with
  | generated =>
    rw [Fate.text, genExpr_ident_method, Option.some_inj, Option.some_inj]
    by_cases hfield : x ∈ c.fieldNames
    · cases m.receiver with
      | some recv => simp [hfield, hne.symm]
      | none => simp [hfield, hne]
    · simp [hfield, hne.symm]
  | verbatim =>
    rw [Fate.text, Option.some_inj]
    simp [hne.symm]
  | unwritten =>
    rw [Fate.text]
    have hnone : ∀ t : String, none ≠ some t := fun t h ↦ Option.some_ne_none t h.symm
    constructor
    · rintro ⟨hfield, hlocal⟩
      have hnot : x ∉ locals := fun h ↦ hnone _ (hlocal h)
      exact ⟨fun h ↦ hnone _ (hfield.mpr ⟨h, hnot⟩), hnot⟩
    · rintro ⟨hfield, hlocal⟩
      exact ⟨iff_of_false (hnone _) fun h ↦ hfield h.1, fun h ↦ absurd h hlocal⟩

/-- **Fields and locals** are told apart exactly when their names are. -/
theorem field_scope_iff (L : List SealedClass) (c : ClassDecl) (m : FnDecl) :
    ScopesRespected L c m ↔ ScopesApart L c m :=
  forall₂_congr fun p _ ↦ forall₃_congr fun ks x _ ↦ scope_iff p.locals ks x

/-- A parameter with the name of a field. -/
def shadowsField : String := "class C(x: int) \x7b fn set(x: int) \x7b this.x = x \x7d \x7d"

/-- **A local written as a field**: the value of the assignment is the parameter. -/
theorem shadowed_field : ∃ prog c m, parse 25 shadowsField = .ok prog ∧
    Decl.classDecl c ∈ prog.decls ∧ m ∈ c.members ∧ ¬ScopesRespected [] c m := by
  have hcheck : parsedAs (anyMethod fun fields m ↦ m.receiver.isNone && m.places.any fun p ↦
      p.expr.ident? = some "x" && p.locals.contains "x" && fields.contains "x")
      (parse 25 shadowsField) = true := by decide +kernel
  obtain ⟨prog, hprog, hmethod⟩ := exists_of_parsedAs hcheck
  obtain ⟨c, m, hc, hm, hplace⟩ := exists_of_anyMethod hmethod
  simp only [Bool.and_eq_true, List.any_eq_true, decide_eq_true_eq, Option.isNone_iff_eq_none,
    List.contains_iff_mem] at hplace
  obtain ⟨hrecv, p, hp, ⟨hx, hlocal⟩, hfield⟩ := hplace
  refine ⟨prog, c, m, hprog, hc, hm, fun h ↦ ?_⟩
  have hapart := (scope_iff p.locals [] "x").mp (h p hp [] "x" (eq_ident_of_ident? hx))
  rw [memberFate] at hapart
  split_ifs at hapart
  · have hsome := (hapart hfield).mp hlocal
    rw [hrecv] at hsome
    cases hsome
  · exact hapart.2 hlocal

end Agex

end Zeroxos
