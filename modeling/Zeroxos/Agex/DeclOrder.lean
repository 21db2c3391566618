import Mathlib.Data.List.Nodup
import Zeroxos.Agex.Writes

/-!
# The order of declarations

A sealed class is registered when it is written, so that what comes before it is written without
knowing it.

## The condition

A declaration keeps its text under every reordering exactly when none of the calls in it names a
variant of a sealed class of the program. The top-level statements come after all the declarations,
and are in danger only where sealed classes share a name and a variant (`OrderSafe`).

## Reorderings

Declarations are numbered, and a reordering is a permutation of the numbered declarations which
leaves the statements in their order. The output is the header, the text of each declaration, and
`main`; each is looked at on its own.
-/

namespace Zeroxos

namespace Agex

variable {L L' : List SealedClass} {fields : List String}

/-! ## Declarations -/

/-- The calls on names in the body of a function. -/
def fnCalls (L : List SealedClass) (f : FnDecl) : List NameCall :=
  optCalls L f.exprBody ++ elseCalls L f.body

/-- What a declaration registers. -/
def registered : Decl → List SealedClass
  | .classDecl (.mk name _ isSealed _ _ _ subclasses) =>
    if isSealed && !subclasses.isEmpty then [sealedClass name subclasses] else []
  | _ => []

/-- The calls on names in what is written for a declaration. -/
def declCalls (L : List SealedClass) : Decl → List NameCall
  | .fn f => fnCalls L f
  | .classDecl (.mk _ _ isSealed _ _ members subclasses) =>
    if isSealed && !subclasses.isEmpty then [] else members.flatMap (fnCalls L)
  | .interface i => i.methods.flatMap (fnCalls L)
  | .object o => o.members.flatMap (fnCalls L)
  | .driver v => v.members.flatMap (fnCalls L)
  | _ => []

theorem agree_flatMap {l : List FnDecl} :
    Agree L L' (l.flatMap (fnCalls L)) ↔ ∀ f ∈ l, Agree L L' (fnCalls L f) := by
  induction l with
  | nil => exact iff_of_true agree_nil fun _ h ↦ nomatch h
  | cons f l ih => rw [List.flatMap_cons, agree_append, List.forall_mem_cons, ih]

section Steady

variable (hL : PlainFields L) (hL' : PlainFields L')

include hL hL'

theorem genBody_steady (f : FnDecl) :
    Steady fields L L' (Agree L L' (fnCalls L f)) (genBody f) := by
  have hexpr : Steady fields L L' (Agree L L' (optCalls L f.exprBody))
      (genExprBody f.exprBody) := by
    cases f.exprBody with
    | none => exact Steady.pure.congr (iff_of_true trivial agree_nil)
    | some expr =>
      rw [genExprBody, optCalls]
      refine .emitIn ?_
      exact genExpr_alike hL hL' expr
  have hbody : Steady fields L L' (Agree L L' (elseCalls L f.body)) (genStmtBody f.body) := by
    cases f.body with
    | none => exact Steady.pure.congr (iff_of_true trivial agree_nil)
    | some body => exact genStmts_steady hL hL' body
  exact (hexpr.seq hbody).congr agree_append.symm

theorem genBlock_steady (f : FnDecl) (head : String) :
    Steady fields L L' (Agree L L' (fnCalls L f)) (do
      emit head
      indented (genBody f)
      close) :=
  (Steady.emit head).after ((genBody_steady hL hL' f).indented.before .close)

/-- **Functions.** The fields of a class are in scope in its methods, and not behind them. -/
theorem genFnInner_steady (f : FnDecl) (isMethod : Bool) (fields : List String) :
    Steady [] L L' (Agree L L' (fnCalls L f)) (genFnInner f isMethod fields) := by
  intro i
  have hset : ∀ {before : List String} (after : List String) (i : ℕ), WritesAlike True
      (setFields after) i ⟨before, L⟩ ⟨before, L'⟩ i ⟨after, L⟩ ⟨after, L'⟩ := fun after i ↦
    .of_writes (.setFields i _ after) (.setFields i _ after)
  have hlast : WritesAlike True (if isMethod then setFields [] else pure ()) i ⟨[], L⟩ ⟨[], L'⟩ i
      ⟨[], L⟩ ⟨[], L'⟩ := by
    split_ifs
    · exact hset [] i
    · exact Steady.pure i
  rw [genFnInner, genFnHead, genFnTail]
  cases f.receiver with
  | some recv =>
    -- an extension function is a block in a block
    have hopen : WritesAlike True moreIndent i ⟨[], L⟩ ⟨[], L'⟩ (i + 1) ⟨[], L⟩ ⟨[], L'⟩ :=
      .of_writes (.moreIndent i _) (.moreIndent i _)
    have hshut : WritesAlike True lessIndent (i + 1) ⟨[], L⟩ ⟨[], L'⟩ i ⟨[], L⟩ ⟨[], L'⟩ :=
      .of_writes (.lessIndent i _) (.lessIndent i _)
    refine .after (.after (Steady.emit _ i) (.after hopen (Steady.emit _ (i + 1)))) ?_
    refine .before ((genBody_steady hL hL' f).indented (i + 1)) ?_
    refine .after (Steady.close (i + 1)) ?_
    exact .after (.after hshut (Steady.close i)) hlast
  | none =>
    dsimp only
    cases isMethod with
    | true =>
      refine .after (.after (Steady.emit _ i) (hset fields i)) ?_
      refine .before ((genBody_steady hL hL' f).indented i) ?_
      exact .after (Steady.close i) (.after (Steady.pure i) (hset [] i))
    | false =>
      refine .after (Steady.emit _ i) ?_
      refine .before ((genBody_steady hL hL' f).indented i) ?_
      exact .after (Steady.close i) (.after (Steady.pure i) hlast)

theorem genMembers_steady (params : List Param) (members : List FnDecl) :
    Steady [] L L' (Agree L L' (members.flatMap (fnCalls L))) (genMembers params members) :=
  (Steady.each fun f _ ↦ genFnInner_steady hL hL' f true _).congr agree_flatMap.symm

theorem genInterface_steady (m : InterfaceDecl) :
    Steady [] L L' (Agree L L' (declCalls L (.interface m))) (genInterface m) := by
  have hmethods : Steady [] L L' (∀ f ∈ m.methods, Agree L L' (fnCalls L f))
      (each (fun m : FnDecl ↦
        if m.body.isSome || m.exprBody.isSome then do
          emit (genSignature m.name m.params m.returnType ++ " \x7b")
          indented (genBody m)
          close
        else emit (genSignature m.name m.params m.returnType ++ ";")) m.methods) := by
    refine .each fun f _ ↦ ?_
    split_ifs with hbody
    · exact genBlock_steady hL hL' f _
    · -- nothing is written, and nothing is there
      rw [Bool.or_eq_true, not_or, Option.not_isSome_iff_eq_none,
        Option.not_isSome_iff_eq_none] at hbody
      refine (Steady.emit _).congr (iff_of_true trivial ?_)
      rw [fnCalls, hbody.1, hbody.2]
      exact agree_nil
  exact (Steady.emit _).after ((hmethods.congr agree_flatMap.symm).indented.before .close)

theorem genObject_steady (o : ObjectDecl) :
    Steady [] L L' (Agree L L' (declCalls L (.object o))) (genObject o) := by
  have hmembers : Steady [] L L' (Agree L L' (o.members.flatMap (fnCalls L)))
      (each (fun m : FnDecl ↦ do
        emit ("pub " ++ genSignature m.name m.params m.returnType ++ " \x7b")
        indented (genBody m)
        close) o.members) :=
    (Steady.each fun f _ ↦ genBlock_steady hL hL' f _).congr agree_flatMap.symm
  refine (Steady.emit _).after ((Steady.emit _).after (Steady.before (.indented ?_) .close))
  refine (Steady.emit _).after (.after (.indented ?_) (Steady.close.after hmembers))
  exact (Steady.emit _).after ((Steady.emit _).after (.emit _))

theorem genDriver_steady (v : DriverDecl) :
    Steady [] L L' (Agree L L' (declCalls L (.driver v))) (genDriver v) := by
  have hmembers : Steady [] L L' (Agree L L' (v.members.flatMap (fnCalls L)))
      (each (fun m : FnDecl ↦ do
        emit (genSignature m.name m.params m.returnType ++ " \x7b")
        indented do
          genBody m
          if m.body.isSome then pure () else emit "// hardware setup"
        close) v.members) := by
    refine (Steady.each fun f _ ↦ ?_).congr agree_flatMap.symm
    have hsetup : Steady [] L L' True
        (if f.body.isSome then pure () else emit "// hardware setup") := by
      split_ifs
      · exact .pure
      · exact .emit _
    exact (Steady.emit _).after (((genBody_steady hL hL' f).before hsetup).indented.before .close)
  exact (Steady.emit _).after ((Steady.emit _).after (hmembers.indented.before .close))

end Steady

/-! ### Parts without expressions -/

theorem each_emit_steady {α : Type} (line : α → String) (l : List α) :
    Steady fields L L' True (each (fun a ↦ emit (line a)) l) :=
  (Steady.each (P := fun _ ↦ True) fun a _ ↦ .emit (line a)).congr
    (iff_of_true (fun _ _ ↦ trivial) trivial)

theorem genStruct_steady {P : Prop} (name : String) (params : List Param) {rest : Gen Unit}
    (h : Steady fields L L' P rest) : Steady fields L L' P (genStruct name params rest) := by
  refine (Steady.emit _).after (((each_emit_steady _ params).indented).after ?_)
  refine Steady.close.after ((Steady.emit _).after (Steady.before (.indented ?_) .close))
  exact (Steady.emit _).after ((Steady.emit _).indented.after (Steady.close.after h))

theorem genDisplay_steady (name : String) {body : Gen Unit} (h : Steady fields L L' True body) :
    Steady fields L L' True (genDisplay name body) := by
  refine (Steady.emit _).after (Steady.before (.indented ?_) .close)
  exact (Steady.emit _).after (h.indented.before .close)

/-- A sealed class is registered, and written the same whatever else is. -/
theorem genSealed_alike (name : String) (subclasses : List ClassDecl) (i : ℕ) :
    WritesAlike True (genSealed name subclasses) i ⟨[], L⟩ ⟨[], L'⟩ i
      ⟨[], L ++ [sealedClass name subclasses]⟩ ⟨[], L' ++ [sealedClass name subclasses]⟩ := by
  have hregister : WritesAlike True (registerSealed (sealedClass name subclasses)) i ⟨[], L⟩
      ⟨[], L'⟩ i ⟨[], L ++ [sealedClass name subclasses]⟩
      ⟨[], L' ++ [sealedClass name subclasses]⟩ :=
    .of_writes (.registerSealed i _ _) (.registerSealed i _ _)
  refine hregister.after ?_
  generalize L ++ [sealedClass name subclasses] = M, L' ++ [sealedClass name subclasses] = M'
  have hvariants : Steady [] M M' True (each genVariant subclasses) :=
    (Steady.each (P := fun _ ↦ True) fun c _ ↦ by cases c; exact .emit _).congr
      (iff_of_true (fun _ _ ↦ trivial) trivial)
  have hcases : Steady [] M M' True (each (genVariantDisplay name) subclasses) :=
    (Steady.each (P := fun _ ↦ True) fun c _ ↦ by cases c; exact .emit _).congr
      (iff_of_true (fun _ _ ↦ trivial) trivial)
  refine ((Steady.emit _).after (hvariants.indented.after (Steady.close.after ?_))) i
  exact genDisplay_steady name ((Steady.emit _).after (hcases.indented.before .close))

/-! ### A declaration -/

theorem of_steady {P : Prop} {d : Decl} {p : Gen Unit} (hd : registered d = [])
    (h : Steady [] L L' P p) (i : ℕ) : WritesAlike P p i ⟨[], L⟩ ⟨[], L'⟩ i
      ⟨[], L ++ registered d⟩ ⟨[], L' ++ registered d⟩ := by
  rw [hd, List.append_nil, List.append_nil]
  exact h i

theorem genClass_alike (hL : PlainFields L) (hL' : PlainFields L') (c : ClassDecl) (i : ℕ) :
    WritesAlike (Agree L L' (declCalls L (.classDecl c))) (genClass c) i ⟨[], L⟩ ⟨[], L'⟩ i
      ⟨[], L ++ registered (.classDecl c)⟩ ⟨[], L' ++ registered (.classDecl c)⟩ := by
  obtain ⟨name, isData, isSealed, params, bases, members, subclasses⟩ := c
  rw [genClass, declCalls, registered]
  split_ifs
  · exact (genSealed_alike name subclasses i).congr (iff_of_true trivial agree_nil)
  · rw [List.append_nil, List.append_nil]
    have hcomponents : Steady [] L L' True (genComponents params) := each_emit_steady _ _
    have hstruct := genStruct_steady name params
      (hcomponents.after (genMembers_steady hL hL' params members))
    exact (Steady.emit _).after (hstruct.before (genDisplay_steady name (.emit _))) i
  · rw [List.append_nil, List.append_nil]
    exact genStruct_steady name params (genMembers_steady hL hL' params members) i

/-- **One declaration.** -/
theorem genDecl_alike (hL : PlainFields L) (hL' : PlainFields L') (d : Decl) (i : ℕ) :
    WritesAlike (Agree L L' (declCalls L d)) (genDecl d) i ⟨[], L⟩ ⟨[], L'⟩ i
      ⟨[], L ++ registered d⟩ ⟨[], L' ++ registered d⟩ := by
  cases d with
  | fn f => exact of_steady rfl (genFnInner_steady hL hL' f false []) i
  | classDecl c => exact genClass_alike hL hL' c i
  | interface m => exact of_steady rfl (genInterface_steady hL hL' m) i
  | object o => exact of_steady rfl (genObject_steady hL hL' o) i
  | driver v => exact of_steady rfl (genDriver_steady hL hL' v) i
  | stmt s => exact of_steady rfl (Steady.pure.congr (iff_of_true trivial agree_nil)) i
  | externDecl e =>
    have hfns : Steady [] L L' True (genExtern e) := (Steady.emit _).after
      ((each_emit_steady _ e.fns).indented.before .close)
    exact of_steady rfl (hfns.congr (iff_of_true trivial agree_nil)) i
  | importDecl m =>
    have hmod : Steady [] L L' True (genImport m) := by
      refine (Steady.emit _).after ?_
      split_ifs
      · exact .emit _
      · exact .pure
    exact of_steady rfl (hmod.congr (iff_of_true trivial agree_nil)) i

/-! ## Programs -/

/-- What `p` writes at the top level when the sealed classes `L` are known. -/
def written (p : Gen Unit) (L : List SealedClass) : String :=
  ((p ⟨⟨[], L⟩, "", 0, []⟩).map fun r ↦ r.2.out).getD ""

/-- The sealed classes of numbered declarations. -/
def sealedOf (l : List (Decl × ℕ)) : List SealedClass := l.flatMap fun p ↦ registered p.1

/-- The items of a program, each with the number of its declaration, from where the sealed classes
`L` are known. -/
def itemTexts (L : List SealedClass) : List (Decl × ℕ) → List (ℕ × String)
  | [] => []
  | (d, n) :: l =>
    if d.stmt?.isSome then itemTexts L l
    else (n, written (genItem d) L) :: itemTexts (L ++ registered d) l

/-- The function that the statements become. -/
def mainText (l : List (Decl × ℕ)) : String :=
  written (genMain (l.filterMap fun p ↦ p.1.stmt?)) (sealedOf l)

theorem written_eq {p : Gen Unit} {text : String} {i' : ℕ} {s' : Scope}
    (h : Writes p 0 ⟨[], L⟩ text i' s') : written p L = text := by
  rw [written, h]
  exact String.empty_append

theorem written_alike {P : Prop} {p : Gen Unit} {i' : ℕ} {s' r' : Scope}
    (h : WritesAlike P p 0 ⟨[], L⟩ ⟨[], L'⟩ i' s' r') : Alike P (written p L) (written p L') := by
  obtain ⟨t, u, ht, hu, halike⟩ := h
  rw [written_eq ht, written_eq hu]
  exact halike

theorem genItem_alike (hL : PlainFields L) (hL' : PlainFields L') (d : Decl) :
    WritesAlike (Agree L L' (declCalls L d)) (genItem d) 0 ⟨[], L⟩ ⟨[], L'⟩ 0
      ⟨[], L ++ registered d⟩ ⟨[], L' ++ registered d⟩ :=
  (genDecl_alike hL hL' d 0).before (Steady.emit "" 0)

theorem genMain_steady (hL : PlainFields L) (hL' : PlainFields L') (stmts : List Stmt) :
    Steady [] L L' (Agree L L' (stmtsCalls L stmts)) (genMain stmts) := by
  cases stmts with
  | nil => exact Steady.pure.congr (iff_of_true trivial agree_nil)
  | cons s stmts =>
    exact (Steady.emit _).after ((genStmts_steady hL hL' (s :: stmts)).indented.before .close)

theorem Writes.of_alike {P : Prop} {p : Gen Unit} {i' : ℕ} {s' : Scope}
    (h : WritesAlike P p 0 ⟨[], L⟩ ⟨[], L⟩ i' s' s') : Writes p 0 ⟨[], L⟩ (written p L) i' s' := by
  obtain ⟨t, u, ht, -, -⟩ := h
  rw [written_eq ht]
  exact ht

theorem plainFields_append : PlainFields (L ++ L') ↔ PlainFields L ∧ PlainFields L' :=
  List.forall_mem_append

theorem writes_items {l : List (Decl × ℕ)} (h : PlainFields (L ++ sealedOf l)) :
    Writes (each genItem ((l.map Prod.fst).filter fun d ↦ d.stmt?.isNone)) 0 ⟨[], L⟩
      (String.join ((itemTexts L l).map Prod.snd)) 0 ⟨[], L ++ sealedOf l⟩ := by
  induction l generalizing L with
  | nil =>
    rw [sealedOf, List.flatMap_nil, List.append_nil]
    exact .pure 0 _
  | cons p l ih =>
    obtain ⟨d, n⟩ := p
    have hsealed : sealedOf ((d, n) :: l) = registered d ++ sealedOf l := List.flatMap_cons
    rw [hsealed, ← List.append_assoc] at h ⊢
    rw [List.map_cons, List.filter_cons, itemTexts]
    cases hstmt : d.stmt? with
    | none =>
      have hL : PlainFields L := (plainFields_append.mp (plainFields_append.mp h).1).1
      have hitem : Writes (genItem d) 0 ⟨[], L⟩ (written (genItem d) L) 0
          ⟨[], L ++ registered d⟩ := .of_alike (genItem_alike hL hL d)
      rw [if_pos (by rfl), if_neg (by simp), List.map_cons, String.join_cons]
      exact hitem.seq (ih h)
    | some s =>
      have hnone : registered d = [] := by
        cases d with
        | stmt s => rfl
        | _ => cases hstmt
      rw [if_neg (by simp), if_pos (by rfl)]
      rw [hnone, List.append_nil] at h ⊢
      exact ih h

/-- **The output** is the header, the items, and `main`. -/
theorem generate_eq {l : List (Decl × ℕ)} (h : PlainFields (sealedOf l)) :
    generate ⟨l.map Prod.fst⟩ = some ⟨written genHeader []
      ++ String.join ((itemTexts [] l).map Prod.snd) ++ mainText l, []⟩ := by
  have hheader : Writes genHeader 0 ⟨[], []⟩ (written genHeader []) 0 ⟨[], []⟩ :=
    .of_alike <| (Steady.emit _).after ((Steady.emit _).after ((Steady.emit _).after
      ((Steady.emit _).after (.emit _)))) 0
  have hmain : Writes (genMain ((l.map Prod.fst).filterMap Decl.stmt?)) 0 ⟨[], sealedOf l⟩
      (mainText l) 0 ⟨[], sealedOf l⟩ := by
    rw [List.filterMap_map]
    exact .of_alike (genMain_steady h h _ 0)
  have hrun := (hheader.seq ((writes_items (L := []) h).seq hmain)) "" []
  have hprogram : genProgram ⟨l.map Prod.fst⟩ Generator.new
      = some ((), ⟨⟨[], sealedOf l⟩, "" ++ (written genHeader []
        ++ (String.join ((itemTexts [] l).map Prod.snd) ++ mainText l)), 0, []⟩) := hrun
  rw [generate, hprogram, String.empty_append, ← String.append_assoc]
  rfl

/-! ## Reordering -/

/-- The declarations of a program, numbered. -/
def Program.numbered (prog : Program) : List (Decl × ℕ) := prog.decls.zipIdx

/-- The statements among numbered declarations. -/
def stmtsOf (l : List (Decl × ℕ)) : List (Decl × ℕ) := l.filter fun p ↦ p.1.stmt?.isSome

/-- A reordering of the declarations that leaves the statements in their order. -/
structure Reorders (prog : Program) (l : List (Decl × ℕ)) : Prop where
  perm : l.Perm prog.numbered
  stmts : stmtsOf l = stmtsOf prog.numbered

/-- Every declaration keeps its text under every reordering, and so does `main`. -/
def OrderFree (prog : Program) : Prop :=
  ∀ l, Reorders prog l → (itemTexts [] l).Perm (itemTexts [] prog.numbered) ∧
    mainText l = mainText prog.numbered

/-- No call in a declaration names a variant of a sealed class of the program. Where one in a
top-level statement names variants of several, they have the same fields for its arguments. -/
structure OrderSafe (prog : Program) : Prop where
  decls : ∀ p ∈ prog.numbered, p.1.stmt? = none → ∀ call ∈ declCalls [] p.1,
    ∀ c ∈ sealedOf prog.numbered, c.fields? call.enumName call.variant = none
  stmts : ∀ call ∈ stmtsCalls (sealedOf prog.numbered)
      (prog.numbered.filterMap fun p ↦ p.1.stmt?),
    ∀ c ∈ sealedOf prog.numbered, ∀ c' ∈ sealedOf prog.numbered, ∀ f f',
      c.fields? call.enumName call.variant = some f →
      c'.fields? call.enumName call.variant = some f' →
      ∀ i < call.arity, fieldName f i = fieldName f' i

section Order

variable {prog : Program} {l l' : List (Decl × ℕ)} {call : NameCall}

theorem sealedFields_eq_none : sealedFields L call.enumName call.variant = none ↔
    ∀ c ∈ L, c.fields? call.enumName call.variant = none := List.findSome?_eq_none_iff

theorem sameFields_nil : SameFields [] L call ↔
    ∀ c ∈ L, c.fields? call.enumName call.variant = none := by
  have hnil : sealedFields [] call.enumName call.variant = none := rfl
  rw [SameFields, hnil, ← sealedFields_eq_none]
  cases sealedFields L call.enumName call.variant with
  | none => exact iff_of_true trivial rfl
  | some f => exact iff_of_false id (Option.some_ne_none f)

theorem mem_sealedOf_of_perm (h : l.Perm l') {c : SealedClass} : c ∈ sealedOf l ↔ c ∈ sealedOf l' :=
  (h.flatMap_right _).mem_iff

theorem PlainFields.mono (h : PlainFields L') (hle : ∀ c ∈ L, c ∈ L') : PlainFields L :=
  fun c hc ↦ h c (hle c hc)

theorem plainFields_nil : PlainFields [] := fun _ h ↦ nomatch h

theorem sealedOf_append (l l' : List (Decl × ℕ)) :
    sealedOf (l ++ l') = sealedOf l ++ sealedOf l' := List.flatMap_append

theorem itemTexts_of_safe (hsafe : OrderSafe prog) (hplain : PlainFields (sealedOf prog.numbered))
    (hl : ∀ p ∈ l, p ∈ prog.numbered)
    (hL : ∀ c ∈ L ++ sealedOf l, c ∈ sealedOf prog.numbered) :
    itemTexts L l = (l.filter fun p ↦ p.1.stmt?.isNone).map fun p ↦
      (p.2, written (genItem p.1) []) := by
  induction l generalizing L with
  | nil => rfl
  | cons p l ih =>
    obtain ⟨d, n⟩ := p
    obtain ⟨hp, hl⟩ := List.forall_mem_cons.mp hl
    have hsealed : sealedOf ((d, n) :: l) = registered d ++ sealedOf l := List.flatMap_cons
    rw [hsealed] at hL
    rw [itemTexts, List.filter_cons]
    cases hstmt : d.stmt? with
    | some s =>
      rw [if_pos (by rfl), if_neg (by simp)]
      refine ih hl fun c hc ↦ hL c ?_
      exact (List.mem_append.mp hc).elim (List.mem_append_left _)
        fun hc ↦ List.mem_append_right _ (List.mem_append_right _ hc)
    | none =>
      have hmem : ∀ c ∈ L, c ∈ sealedOf prog.numbered := fun c hc ↦
        hL c (List.mem_append_left _ hc)
      have htext : written (genItem d) [] = written (genItem d) L := by
        refine (written_alike (genItem_alike plainFields_nil (hplain.mono hmem) d)).iff.mpr ?_
        intro call hcall
        exact sameFields_nil.mpr fun c hc ↦ hsafe.decls _ hp hstmt call hcall c (hmem c hc)
      rw [if_neg (by simp), if_pos (by rfl), List.map_cons, htext]
      rw [← List.append_assoc] at hL
      rw [ih hl hL]

/-- The same classes in another order resolve a call alike, if those that can do it agree. -/
theorem sameFields_of_mem_iff (hmem : ∀ c, c ∈ L ↔ c ∈ L')
    (h : ∀ c ∈ L, ∀ c' ∈ L, ∀ f f', c.fields? call.enumName call.variant = some f →
      c'.fields? call.enumName call.variant = some f' →
      ∀ i < call.arity, fieldName f i = fieldName f' i) : SameFields L L' call := by
  rw [SameFields]
  cases hf : sealedFields L call.enumName call.variant with
  | none =>
    have hf' : sealedFields L' call.enumName call.variant = none :=
      sealedFields_eq_none.mpr fun c hc ↦ sealedFields_eq_none.mp hf c ((hmem c).mpr hc)
    rw [hf']
    trivial
  | some f =>
    obtain ⟨c, hc, hcf⟩ := List.exists_of_findSome?_eq_some hf
    cases hf' : sealedFields L' call.enumName call.variant with
    | none =>
      have hnone := sealedFields_eq_none.mp hf' c ((hmem c).mp hc)
      rw [hnone] at hcf
      cases hcf
    | some f' =>
      obtain ⟨c', hc', hcf'⟩ := List.exists_of_findSome?_eq_some hf'
      exact h c hc c' ((hmem c').mpr hc') f f' hcf hcf'

theorem filterMap_stmtsOf (l : List (Decl × ℕ)) :
    (stmtsOf l).filterMap (fun p ↦ p.1.stmt?) = l.filterMap fun p ↦ p.1.stmt? := by
  induction l with
  | nil => rfl
  | cons p l ih =>
    rw [stmtsOf, List.filter_cons, List.filterMap_cons]
    cases hstmt : p.1.stmt? with
    | none => rw [if_neg (by simp)]; exact ih
    | some s => rw [if_pos (by rfl), List.filterMap_cons, hstmt]; exact congrArg _ ih

theorem orderFree_of_safe (hplain : PlainFields (sealedOf prog.numbered))
    (hsafe : OrderSafe prog) : OrderFree prog := by
  intro l hl
  have hmem : ∀ c, c ∈ sealedOf prog.numbered ↔ c ∈ sealedOf l := fun c ↦
    (mem_sealedOf_of_perm hl.perm).symm
  constructor
  · rw [itemTexts_of_safe hsafe hplain (fun p hp ↦ hl.perm.mem_iff.mp hp)
      fun c hc ↦ (hmem c).mpr hc,
      itemTexts_of_safe hsafe hplain (fun _ hp ↦ hp) fun _ hc ↦ hc]
    exact (hl.perm.filter _).map _
  · have hstmts : l.filterMap (fun p ↦ p.1.stmt?)
        = prog.numbered.filterMap fun p ↦ p.1.stmt? := by
      rw [← filterMap_stmtsOf, hl.stmts, filterMap_stmtsOf]
    rw [mainText, mainText, hstmts]
    have hplain' : PlainFields (sealedOf l) := hplain.mono fun c hc ↦ (hmem c).mpr hc
    refine ((written_alike (genMain_steady hplain hplain' _ 0)).iff.mpr ?_).symm
    exact fun call hcall ↦ sameFields_of_mem_iff hmem (hsafe.stmts call hcall)

theorem itemTexts_append (L : List SealedClass) (l l' : List (Decl × ℕ)) :
    itemTexts L (l ++ l') = itemTexts L l ++ itemTexts (L ++ sealedOf l) l' := by
  induction l generalizing L with
  | nil => rw [sealedOf, List.flatMap_nil, List.append_nil]; rfl
  | cons p l ih =>
    obtain ⟨d, n⟩ := p
    have hsealed : sealedOf ((d, n) :: l) = registered d ++ sealedOf l := List.flatMap_cons
    rw [List.cons_append, itemTexts, itemTexts, hsealed]
    cases hstmt : d.stmt? with
    | none =>
      rw [if_neg (by simp), if_neg (by simp), ih, List.cons_append, List.append_assoc]
    | some s =>
      have hnone : registered d = [] := by
        cases d with
        | stmt s => rfl
        | _ => cases hstmt
      rw [if_pos (by rfl), if_pos (by rfl), ih, hnone, List.nil_append]

theorem itemTexts_sublist (L : List SealedClass) (l : List (Decl × ℕ)) :
    ((itemTexts L l).map Prod.fst).Sublist (l.map Prod.snd) := by
  induction l generalizing L with
  | nil => exact .slnil
  | cons p l ih =>
    obtain ⟨d, n⟩ := p
    rw [itemTexts]
    split_ifs
    · exact (ih L).cons _
    · exact (ih _).cons_cons _

theorem itemTexts_unique {n : ℕ} {text text' : String}
    (h : (n, text) ∈ itemTexts [] prog.numbered) (h' : (n, text') ∈ itemTexts [] prog.numbered) :
    text = text' := by
  have hnumbers : (prog.numbered.map Prod.snd).Nodup := by
    rw [Program.numbered, List.zipIdx_map_snd]
    exact List.nodup_range'
  have hnodup := hnumbers.sublist (itemTexts_sublist [] prog.numbered)
  have heq := List.inj_on_of_nodup_map hnodup h h' rfl
  exact congrArg Prod.snd heq

theorem stmtsOf_cons {p : Decl × ℕ} (hp : p.1.stmt? = none) (l : List (Decl × ℕ)) :
    stmtsOf (p :: l) = stmtsOf l := by
  rw [stmtsOf, List.filter_cons, hp]
  rfl

theorem stmtsOf_append (l l' : List (Decl × ℕ)) : stmtsOf (l ++ l') = stmtsOf l ++ stmtsOf l' :=
  List.filter_append l l'

theorem reorders_move {pre post : List (Decl × ℕ)} {p : Decl × ℕ}
    (hsplit : prog.numbered = pre ++ p :: post) (hp : p.1.stmt? = none) :
    Reorders prog (p :: (pre ++ post)) ∧ Reorders prog (pre ++ post ++ [p]) := by
  have hstmts : stmtsOf prog.numbered = stmtsOf (pre ++ post) := by
    rw [hsplit, stmtsOf_append, stmtsOf_append, stmtsOf_cons hp]
  have hperm : (p :: (pre ++ post)).Perm prog.numbered := by
    rw [hsplit]
    exact List.perm_middle.symm
  refine ⟨⟨hperm, ?_⟩, (List.perm_append_singleton p _).trans hperm, ?_⟩
  · rw [hstmts, stmtsOf_cons hp]
  · rw [hstmts, stmtsOf_append, stmtsOf_cons hp]
    exact List.append_nil _

theorem declCalls_of_registered {d : Decl} {c : SealedClass} (hc : c ∈ registered d) :
    declCalls L d = [] ∧ registered d = [c] := by
  cases d with
  | classDecl decl =>
    obtain ⟨name, isData, isSealed, params, bases, members, subclasses⟩ := decl
    rw [registered] at hc ⊢
    rw [declCalls]
    split_ifs at hc ⊢ with hsealed
    · rw [List.mem_singleton.mp hc]
      exact ⟨rfl, rfl⟩
    · cases hc
  | _ => cases hc

/-- An item is the same when its declaration comes first and when it comes last. -/
theorem OrderFree.decls (h : OrderFree prog) (hplain : PlainFields (sealedOf prog.numbered))
    {p : Decl × ℕ} (hp : p ∈ prog.numbered) (hstmt : p.1.stmt? = none)
    (hcall : call ∈ declCalls [] p.1) {c : SealedClass} (hc : c ∈ sealedOf prog.numbered) :
    c.fields? call.enumName call.variant = none := by
  obtain ⟨pre, post, hsplit⟩ := List.append_of_mem hp
  obtain ⟨hfirst, hlast⟩ := reorders_move hsplit hstmt
  have hnot : ¬p.1.stmt?.isSome = true := by rw [hstmt]; exact Bool.false_ne_true
  have hsealed : sealedOf prog.numbered = sealedOf pre ++ (registered p.1 ++ sealedOf post) := by
    rw [hsplit, sealedOf_append]
    rfl
  have hrest : ∀ c ∈ sealedOf (pre ++ post), c ∈ sealedOf prog.numbered := by
    intro c hc
    rw [sealedOf_append, List.mem_append] at hc
    rw [hsealed]
    exact hc.elim (List.mem_append_left _)
      fun hc ↦ List.mem_append_right _ (List.mem_append_right _ hc)
  have hmem : (p.2, written (genItem p.1) []) ∈ itemTexts [] prog.numbered := by
    refine (h _ hfirst).1.mem_iff.mp ?_
    rw [itemTexts, if_neg hnot]
    exact List.mem_cons_self
  have hmem' : (p.2, written (genItem p.1) (sealedOf (pre ++ post)))
      ∈ itemTexts [] prog.numbered := by
    refine (h _ hlast).1.mem_iff.mp ?_
    rw [itemTexts_append, itemTexts, if_neg hnot]
    exact List.mem_append_right _ List.mem_cons_self
  have hagree := (written_alike (genItem_alike plainFields_nil (hplain.mono hrest) p.1)).iff.mp
    (itemTexts_unique hmem hmem')
  have hnone := sameFields_nil.mp (hagree call hcall)
  rw [hsealed, List.mem_append, List.mem_append] at hc
  rcases hc with hc | hc | hc
  · exact hnone c (by rw [sealedOf_append]; exact List.mem_append_left _ hc)
  · rw [(declCalls_of_registered hc).1] at hcall
    cases hcall
  · exact hnone c (by rw [sealedOf_append]; exact List.mem_append_right _ hc)

/-- With any sealed class in front, `main` is the same. -/
theorem OrderFree.stmts (h : OrderFree prog) (hplain : PlainFields (sealedOf prog.numbered))
    (hcall : call ∈ stmtsCalls (sealedOf prog.numbered)
      (prog.numbered.filterMap fun p ↦ p.1.stmt?))
    {c : SealedClass} (hc : c ∈ sealedOf prog.numbered) {f : List String}
    (hf : c.fields? call.enumName call.variant = some f) :
    ∃ g, sealedFields (sealedOf prog.numbered) call.enumName call.variant = some g ∧
      ∀ i < call.arity, fieldName g i = fieldName f i := by
  obtain ⟨p, hp, hcp⟩ := List.mem_flatMap.mp hc
  have hstmt : p.1.stmt? = none := by
    cases hd : p.1 with
    | stmt s =>
      rw [hd] at hcp
      cases hcp
    | _ => rfl
  obtain ⟨pre, post, hsplit⟩ := List.append_of_mem hp
  obtain ⟨hfirst, -⟩ := reorders_move hsplit hstmt
  have hstmts : (p :: (pre ++ post)).filterMap (fun p ↦ p.1.stmt?)
      = prog.numbered.filterMap fun p ↦ p.1.stmt? := by
    rw [← filterMap_stmtsOf, hfirst.stmts, filterMap_stmtsOf]
  have hmain := (h _ hfirst).2
  rw [mainText, mainText, hstmts] at hmain
  have hplain' : PlainFields (sealedOf (p :: (pre ++ post))) :=
    hplain.mono fun c hc ↦ (mem_sealedOf_of_perm hfirst.perm).mp hc
  have hagree := (written_alike (genMain_steady hplain hplain' _ 0)).iff.mp hmain.symm
  have hsame := hagree call hcall
  have hfront : sealedFields (sealedOf (p :: (pre ++ post))) call.enumName call.variant
      = some f := by
    have hcons : sealedOf (p :: (pre ++ post)) = c :: sealedOf (pre ++ post) := by
      rw [sealedOf, List.flatMap_cons, (declCalls_of_registered (L := []) hcp).2]
      rfl
    rw [hcons, sealedFields, List.findSome?_cons, hf]
  rw [SameFields, hfront] at hsame
  cases hg : sealedFields (sealedOf prog.numbered) call.enumName call.variant with
  | none =>
    rw [hg] at hsame
    exact hsame.elim
  | some g =>
    rw [hg] at hsame
    exact ⟨g, rfl, hsame⟩

theorem orderFree_iff (hplain : PlainFields (sealedOf prog.numbered)) :
    OrderFree prog ↔ OrderSafe prog := by
  refine ⟨fun h ↦ ⟨fun p hp hstmt call hcall c hc ↦ h.decls hplain hp hstmt hcall hc,
    fun call hcall c hc c' hc' f f' hf hf' i hi ↦ ?_⟩, orderFree_of_safe hplain⟩
  obtain ⟨g, hg, hname⟩ := h.stmts hplain hcall hc hf
  obtain ⟨g', hg', hname'⟩ := h.stmts hplain hcall hc' hf'
  obtain rfl := Option.some.inj (hg.symm.trans hg')
  exact (hname i hi).symm.trans (hname' i hi)

end Order

end Agex

end Zeroxos
