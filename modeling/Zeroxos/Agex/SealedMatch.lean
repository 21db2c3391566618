import Zeroxos.Agex.ParserNames
import Zeroxos.Agex.Receiver

/-!
# Making and matching variants

A value of a sealed class is written with the names of its fields, which the generator has
registered. A case is written with its bindings and no field names, which Rust reads as the fields
of the same names.

## The condition

The two agree exactly when the bindings are called as the fields are, and the fields are those that
were registered first for the name of the class and the variant (`sealed_match_iff`).

## Struct patterns

A pattern lists fields, each with a colon and what it is bound to or, for short, alone, and may end
with two dots. `BindsFields` says of a text that it can be read as such a pattern with the fields of
the variant among those listed.
-/

namespace Zeroxos

namespace Agex

/-- The name of a class. -/
def ClassDecl.name : ClassDecl → String
  | .mk name _ _ _ _ _ _ => name

/-- The variants of a sealed class. -/
def ClassDecl.variants : ClassDecl → List ClassDecl
  | .mk _ _ isSealed _ _ _ subclasses => if isSealed then subclasses else []

/-! ## Struct variants -/

/-- A value of a variant, its fields with their values. -/
def structText (enumName variant : String) (inits : List (String × String)) : String :=
  enumName ++ "::" ++ variant ++ " \x7b "
    ++ join ", " (inits.map fun p ↦ p.1 ++ ": " ++ p.2) ++ " \x7d"

/-- What stands in a pattern for a field that is bound to a name. -/
def IsFieldPattern (p : String × String) (text : String) : Prop :=
  text = p.1 ++ ": " ++ p.2 ∨ p.1 = p.2 ∧ text = p.1

/-- A pattern of a variant that binds these fields to these names, whatever else it lists. -/
def BindsFields (enumName variant : String) (pairs : List (String × String)) (text : String) :
    Prop :=
  ∃ (listed : List (String × String)) (texts : List String) (rest : Bool),
    List.Forall₂ IsFieldPattern listed texts ∧
      text = enumName ++ "::" ++ variant ++ " \x7b "
        ++ join ", " (texts ++ if rest then [".."] else []) ++ " \x7d" ∧
      ∀ p ∈ pairs, p ∈ listed

/-- Making a variant of `enumName` sets its fields to the arguments, and a case of it binds them to
the bindings. -/
def VariantsAgree (s : Scope) (enumName : String) (sub : ClassDecl) (args : List Expr)
    (bindings : List String) : Prop :=
  genExpr s (.method (.ident enumName) sub.name args)
      = structText enumName sub.name (sub.fieldNames.zip (genExprs s args)) ∧
    BindsFields enumName sub.name (sub.fieldNames.zip bindings)
      (formatCase (enumName ++ "." ++ sub.name) bindings)

/-- The first variant of the name that is known gives these names to its first `arity` fields. -/
def FirstFields (L : List SealedClass) (enumName variant : String) (names : List String)
    (arity : ℕ) : Prop :=
  ∃ f, sealedFields L enumName variant = some f ∧ ∀ i < arity, fieldName f i = fieldName names i

variable {L : List SealedClass} {enumName variant : String} {names bindings : List String}

/-! ## Values -/

theorem variantText_eq_structText {texts : List String} (h : texts.length = names.length) :
    variantText enumName variant names texts = structText enumName variant (names.zip texts) := by
  have hpairs : (texts.mapIdx fun i arg ↦ fieldName names i ++ ": " ++ arg)
      = (names.zip texts).map fun p ↦ p.1 ++ ": " ++ p.2 := by
    refine List.ext_getElem ?_ fun i hi hi' ↦ ?_
    · rw [List.length_mapIdx, List.length_map, List.length_zip, h, min_self]
    · rw [List.length_mapIdx] at hi
      rw [List.getElem_mapIdx, List.getElem_map, List.getElem_zip, fieldName,
        List.getElem?_eq_getElem (h ▸ hi), Option.getD_some]
  rw [variantText, hpairs, structText]

/-- A variant that is known is made with the names that are wanted, exactly when they are its. -/
theorem makes_iff (hL : PlainFields L) (fields : List String) {f : List String}
    (hf : sealedFields L enumName variant = some f) (hnames : ∀ x ∈ names, PlainName x)
    {args : List Expr} (hargs : args.length = names.length) :
    genExpr ⟨fields, L⟩ (.method (.ident enumName) variant args)
        = structText enumName variant (names.zip (genExprs ⟨fields, L⟩ args)) ↔
      ∀ i < args.length, fieldName f i = fieldName names i := by
  have hlength : (genExprs ⟨fields, L⟩ args).length = names.length := by
    rw [genExprs_eq_map, List.length_map, hargs]
  have hsame : ∀ c : NameCall, SameFields L L c := fun c ↦ by
    rw [SameFields]
    cases sealedFields L c.enumName c.variant with
    | none => trivial
    | some f => exact fun _ _ ↦ rfl
  have halike : Alike ((∀ i < args.length, fieldName f i = fieldName names i) ∧
        Agree L L (exprsCalls L args).flatten)
      (variantText enumName variant f (genExprs ⟨fields, L⟩ args))
      (variantText enumName variant names (genExprs ⟨fields, L⟩ args)) :=
    alike_variant (fun e _ ↦ genExpr_alike hL hL e) (hL.sealedFields hf) hnames
  have hsealed : ((Expr.ident enumName).ident?.bind fun n ↦ sealedFields L n variant) = some f := hf
  rw [genExpr, hsealed, ← variantText_eq_structText hlength]
  exact halike.iff.trans (and_iff_left fun c _ ↦ hsame c)

/-! ## Patterns -/

theorem splitDot_eq (h : IsName enumName) :
    splitDot (enumName ++ "." ++ variant) = (enumName, variant) := by
  have hread : (enumName ++ "." ++ variant).toList = enumName.toList ++ '.' :: variant.toList := by
    rw [String.toList_append, String.toList_append, List.append_assoc]
    rfl
  have hname : ∀ c ∈ enumName.toList, decide (c ≠ '.') = true := fun c hc ↦
    decide_eq_true fun hdot ↦ h.notMem (by decide) (hdot ▸ hc)
  have hdot : ∀ c ∈ ('.' :: variant.toList).head?, decide (c ≠ '.') = false := fun c hc ↦ by
    rw [← Option.some.inj hc]
    decide
  obtain ⟨htake, hdrop⟩ := span_append hname hdot
  rw [splitDot, hread, htake, hdrop, List.tail_cons, String.ofList_toList, String.ofList_toList]

/-- A case that names a variant lists its bindings, or that there are others. -/
theorem formatCase_variant (h : IsName enumName) :
    formatCase (enumName ++ "." ++ variant) bindings = enumName ++ "::" ++ variant ++ " \x7b "
      ++ join ", " (bindings ++ if bindings.isEmpty then [".."] else []) ++ " \x7d" := by
  have hdot : '.' ∈ (enumName ++ "." ++ variant).toList := by
    rw [String.toList_append, String.toList_append]
    exact List.mem_append_left _ (List.mem_append_right _ List.mem_cons_self)
  have hne : ∀ t : String, '.' ∉ t.toList → enumName ++ "." ++ variant ≠ t := fun t ht heq ↦
    ht (heq ▸ hdot)
  have hresult : ¬(enumName ++ "." ++ variant = "Ok" ∨ enumName ++ "." ++ variant = "Err") :=
    not_or.mpr ⟨hne _ (by decide), hne _ (by decide)⟩
  rw [formatCase.eq_def, if_neg (hne _ (by decide)), if_neg hresult,
    if_pos (List.contains_iff_mem.mpr hdot), splitDot_eq h]
  dsimp only
  cases bindings with
  | nil =>
    have hrest : " \x7b .. \x7d" = " \x7b " ++ join ", " ([] ++ [".."]) ++ " \x7d" := rfl
    rw [List.isEmpty_nil, if_pos rfl, if_pos rfl, hrest]
    simp only [String.append_assoc]
  | cons b bindings =>
    rw [List.isEmpty_cons, if_neg Bool.false_ne_true, if_neg Bool.false_ne_true, List.append_nil]

theorem mem_join {sep : String} {c : Char} {l : List String} {t : String} (ht : t ∈ l)
    (hc : c ∈ t.toList) : c ∈ (join sep l).toList := by
  induction l with
  | nil => exact absurd ht List.not_mem_nil
  | cons s l ih =>
    cases l with
    | nil => rwa [join, ← List.mem_singleton.mp ht]
    | cons s' l =>
      rw [join, String.toList_append, List.mem_append]
      rcases List.mem_cons.mp ht with rfl | ht
      · exact .inl (String.toList_append ▸ List.mem_append_left _ hc)
      · exact .inr (ih ht)

theorem notMem_join {sep : String} {c : Char} (hsep : c ∉ sep.toList) {l : List String}
    (h : ∀ t ∈ l, c ∉ t.toList) : c ∉ (join sep l).toList := by
  induction l with
  | nil => exact List.not_mem_nil
  | cons s l ih =>
    obtain ⟨hs, hl⟩ := List.forall_mem_cons.mp h
    cases l with
    | nil => exact hs
    | cons s' l =>
      rw [join, String.toList_append, String.toList_append, List.mem_append, List.mem_append]
      exact not_or.mpr ⟨not_or.mpr ⟨hs, hsep⟩, ih hl⟩

theorem eq_of_isFieldPattern {listed : List (String × String)} {texts : List String}
    (h : List.Forall₂ IsFieldPattern listed texts) (htexts : ∀ t ∈ texts, ':' ∉ t.toList)
    {p : String × String} (hp : p ∈ listed) : p.1 = p.2 := by
  induction h with
  | nil => exact absurd hp List.not_mem_nil
  | @cons q t listed texts hqt _ ih =>
    obtain ⟨ht, htexts⟩ := List.forall_mem_cons.mp htexts
    rcases List.mem_cons.mp hp with rfl | hp
    · rcases hqt with rfl | ⟨heq, -⟩
      · refine absurd ?_ ht
        rw [String.toList_append, String.toList_append]
        exact List.mem_append_left _ (List.mem_append_right _ List.mem_cons_self)
      · exact heq
    · exact ih htexts hp

theorem forall₂_isFieldPattern_self (names : List String) :
    List.Forall₂ IsFieldPattern (names.zip names) names := by
  induction names with
  | nil => exact .nil
  | cons x names ih => exact .cons (.inr ⟨rfl, rfl⟩) ih

theorem eq_of_forall_zip {l k : List String} (hlength : l.length = k.length)
    (h : ∀ p ∈ l.zip k, p.1 = p.2) : l = k := by
  refine List.ext_getElem hlength fun i hi hi' ↦ ?_
  have hp : (l[i], k[i]) ∈ l.zip k := by
    rw [← List.getElem_zip (h := by rw [List.length_zip]; omega)]
    exact List.getElem_mem _
  exact h _ hp

/-- The bindings of a case are for the fields of their names. -/
theorem binds_iff (henum : IsName enumName) (hbindings : ∀ b ∈ bindings, IsName b)
    (hlength : bindings.length = names.length) :
    BindsFields enumName variant (names.zip bindings)
      (formatCase (enumName ++ "." ++ variant) bindings) ↔ names = bindings := by
  rw [formatCase_variant henum]
  constructor
  · rintro ⟨listed, texts, rest, hlisted, htext, hpairs⟩
    have hjoin := String.append_right_inj _ |>.mp (String.append_left_inj _ |>.mp htext)
    have hcolon : ':' ∉
        (join ", " (bindings ++ if bindings.isEmpty then [".."] else [])).toList := by
      refine notMem_join (by decide) fun t ht ↦ ?_
      rcases List.mem_append.mp ht with ht | ht
      · exact (hbindings t ht).notMem (by decide)
      · split_ifs at ht
        · rw [List.mem_singleton.mp ht]
          decide
        · exact absurd ht List.not_mem_nil
    rw [hjoin] at hcolon
    have htexts : ∀ t ∈ texts, ':' ∉ t.toList := fun t ht hmem ↦
      hcolon (mem_join (List.mem_append_left _ ht) hmem)
    exact eq_of_forall_zip hlength.symm fun p hp ↦
      eq_of_isFieldPattern hlisted htexts (hpairs p hp)
  · rintro rfl
    exact ⟨_, names, names.isEmpty, forall₂_isFieldPattern_self names, rfl, fun _ hp ↦ hp⟩

/-! ## Programs -/

theorem registered_of_variants {c sub : ClassDecl} (hsub : sub ∈ c.variants) :
    registered (.classDecl c) = [sealedClass c.name c.variants] := by
  obtain ⟨name, isData, isSealed, params, bases, members, subclasses⟩ := c
  rw [ClassDecl.variants] at hsub ⊢
  split_ifs at hsub ⊢ with hsealed
  · have hne : subclasses ≠ [] := List.ne_nil_of_mem hsub
    rw [registered, hsealed, Bool.true_and, List.isEmpty_eq_false_iff.mpr hne]
    rfl
  · exact absurd hsub List.not_mem_nil

theorem exists_sealedFields {c sub : ClassDecl} (hsub : sub ∈ c.variants)
    (hc : sealedClass c.name c.variants ∈ L) : ∃ f, sealedFields L c.name sub.name = some f := by
  have hvariant : ((sealedClass c.name c.variants).fields? c.name sub.name).isSome = true := by
    have hfind : ((sealedClass c.name c.variants).2.find?
        fun v ↦ v.1 = sub.name).isSome = true := by
      rw [List.find?_isSome]
      refine ⟨_, List.mem_map_of_mem hsub, ?_⟩
      cases sub
      exact decide_eq_true rfl
    rw [SealedClass.fields?, sealedClass, if_pos rfl, Option.isSome_map]
    exact hfind
  rw [← Option.isSome_iff_exists, sealedFields, List.findSome?_isSome_iff]
  exact ⟨_, hc, hvariant⟩

theorem WrittenClass.variants {c : ClassDecl} (h : WrittenClass c) :
    IsName c.name ∧ ∀ sub ∈ c.variants, WrittenClass sub := by
  obtain ⟨name, isData, isSealed, params, bases, members, subclasses⟩ := c
  refine ⟨h.1, fun sub hsub ↦ ?_⟩
  rw [ClassDecl.variants] at hsub
  split_ifs at hsub
  · exact h.2.2.2.forall sub hsub
  · exact absurd hsub List.not_mem_nil

theorem itemLines_append (L : List SealedClass) (k l : List Decl) :
    itemLines L (k ++ l) = itemLines L k ++ itemLines (L ++ k.flatMap registered) l := by
  induction k generalizing L with
  | nil => rw [List.nil_append, List.flatMap_nil, List.append_nil, itemLines, List.nil_append]
  | cons d k ih =>
    rw [List.cons_append, itemLines, itemLines, ih, List.flatMap_cons]
    simp only [List.append_assoc]

theorem items_flatMap_registered (l : List Decl) :
    (l.filter fun d ↦ d.stmt?.isNone).flatMap registered = l.flatMap registered := by
  induction l with
  | nil => rfl
  | cons d l ih =>
    rw [List.flatMap_cons, ← ih]
    cases d with
    | stmt s => rfl
    | _ => rfl

/-- A declaration is written with the sealed classes in front of it. -/
theorem declLines_mem_programLines {prog : Program} {pre post : List Decl} {d : Decl}
    (hdecls : prog.decls = pre ++ d :: post) (hd : d.stmt? = none) :
    ∀ line ∈ declLines (pre.flatMap registered) d, line ∈ programLines prog := by
  intro line hline
  have hkeep : d.stmt?.isNone = true := Option.isNone_iff_eq_none.mpr hd
  rw [programLines, Program.items, hdecls, List.filter_append,
    List.filter_cons_of_pos (p := fun d : Decl ↦ d.stmt?.isNone) hkeep, itemLines_append,
    items_flatMap_registered, List.nil_append, itemLines]
  refine List.mem_append_left _ (List.mem_append_right _ (List.mem_append_right _ ?_))
  exact List.mem_append_left _ (List.mem_append_left _ hline)

theorem mainLines_mem_programLines (prog : Program) :
    ∀ line ∈ mainLines (prog.decls.flatMap registered) prog.topStmts, line ∈ programLines prog := by
  rw [programLines, Program.items, items_flatMap_registered]
  exact fun line hline ↦ List.mem_append_right _ hline

/-- **Variants.** Behind the declaration of a sealed class, making a variant and matching it agree
exactly when the variant is the first of its name and the bindings are called as its fields are. -/
theorem sealed_match_iff {src : String} {toks : List Token}
    (htoks : tokenize src = some (.ok toks)) {fuel : ℕ} (hfuel : toks.length ≤ fuel)
    {prog : Program} (hprog : parse fuel src = .ok prog) {pre mid rest : List Decl}
    {c sub : ClassDecl} (hdecls : prog.decls = pre ++ .classDecl c :: mid ++ rest)
    (hsub : sub ∈ c.variants) (fields : List String) {args : List Expr}
    (hargs : args.length = sub.params.length) {bindings : List String}
    (hbindings : ∀ b ∈ bindings, IsName b) (hlength : bindings.length = sub.params.length) :
    VariantsAgree ⟨fields, (pre ++ .classDecl c :: mid).flatMap registered⟩ c.name sub args bindings
      ↔ FirstFields ((pre ++ .classDecl c :: mid).flatMap registered) c.name sub.name sub.fieldNames
          sub.params.length ∧ sub.fieldNames = bindings := by
  have hc : Decl.classDecl c ∈ pre ++ .classDecl c :: mid :=
    List.mem_append_right _ List.mem_cons_self
  have hmem : ∀ d ∈ pre ++ .classDecl c :: mid, d ∈ prog.decls := fun d hd ↦
    hdecls ▸ List.mem_append_left _ hd
  have hclass : WrittenClass c := written_of_parse htoks hfuel hprog _ (hmem _ hc)
  obtain ⟨hname, hvariants⟩ := hclass.variants
  have hL : PlainFields ((pre ++ .classDecl c :: mid).flatMap registered) := by
    intro s hs
    obtain ⟨d, hd, hds⟩ := List.mem_flatMap.mp hs
    exact forall_decls_of_parse (parseDecl_yields hfuel) htoks hfuel hprog d (hmem d hd) s hds
  have hregistered : sealedClass c.name c.variants
      ∈ (pre ++ .classDecl c :: mid).flatMap registered := by
    refine List.mem_flatMap.mpr ⟨_, hc, ?_⟩
    rw [registered_of_variants hsub]
    exact List.mem_singleton_self _
  obtain ⟨f, hf⟩ := exists_sealedFields hsub hregistered
  have hnames : sub.fieldNames.length = sub.params.length := List.length_map _
  have hplain : ∀ x ∈ sub.fieldNames, PlainName x := fun x hx ↦
    plainName_of_isName ((hvariants sub hsub).spec.1 x hx)
  have hfirst : FirstFields ((pre ++ .classDecl c :: mid).flatMap registered) c.name sub.name
      sub.fieldNames sub.params.length ↔ ∀ i < args.length, fieldName f i
        = fieldName sub.fieldNames i := by
    rw [FirstFields, hf, hargs]
    exact ⟨fun ⟨_, heq, h⟩ ↦ Option.some.inj heq ▸ h, fun h ↦ ⟨f, rfl, h⟩⟩
  rw [VariantsAgree, makes_iff hL fields hf hplain (hargs.trans hnames.symm),
    binds_iff hname hbindings (hlength.trans hnames.symm), hfirst]

/-- A case in which the binding is called as the field is. -/
def bindsSameName : String :=
  "sealed class D \x7b class P(a: int) \x7d match d \x7b D.P(a) => \x7b \x7d \x7d"

/-- The program has one variant, which is `D.P` with the field `a`, and a case of it. -/
def matchesVariant (bindings : List String) (prog : Program) : Bool :=
  match prog.decls with
  | [.classDecl c, .stmt (.matchStmt _ [.mk pattern names _])] =>
    c.name = "D" && (c.variants.map fun sub ↦ (sub.name, sub.fieldNames)) = [("P", ["a"])]
      && pattern = "D.P" && names = bindings
  | _ => false

/-- A program of a sealed class and a case of its variant. -/
def IsVariantCase (prog : Program) (c sub : ClassDecl) (bindings : List String) : Prop :=
  c.variants = [sub] ∧ ∃ expr body, prog.decls = [.classDecl c,
    .stmt (.matchStmt expr [.mk (c.name ++ "." ++ sub.name) bindings body])]

theorem exists_of_matchesVariant {bindings : List String} {prog : Program}
    (h : matchesVariant bindings prog = true) : ∃ c sub, IsVariantCase prog c sub bindings ∧
      c.name = "D" ∧ sub.name = "P" ∧ sub.fieldNames = ["a"] := by
  rw [matchesVariant] at h
  split at h
  · rename_i c expr pattern names body hdecls
    simp only [Bool.and_eq_true, decide_eq_true_eq] at h
    obtain ⟨⟨⟨hname, hvariants⟩, rfl⟩, rfl⟩ := h
    obtain ⟨sub, hsub, hfields⟩ := List.map_eq_singleton_iff.mp hvariants
    obtain ⟨hsubName, hfields⟩ := Prod.mk.inj hfields
    refine ⟨c, sub, ⟨hsub, expr, body, ?_⟩, hname, hsubName, hfields⟩
    rw [hdecls, hname, hsubName]
    rfl
  · cases h

theorem sealed_match_bindsSameName : ∃ prog c sub, parse 32 bindsSameName = .ok prog ∧
    IsVariantCase prog c sub ["a"] ∧
      VariantsAgree ⟨[], registered (.classDecl c)⟩ c.name sub [.int "1"] ["a"] := by
  have hcheck : parsedAs (matchesVariant ["a"]) (parse 32 bindsSameName) = true := by
    decide +kernel
  obtain ⟨prog, hprog, hmatches⟩ := exists_of_parsedAs hcheck
  obtain ⟨c, sub, hcase, hname, hsubName, hfields⟩ := exists_of_matchesVariant hmatches
  obtain ⟨hvariants, expr, body, hdecls⟩ := hcase
  have htoks : ∃ toks, tokenize bindsSameName = some (.ok toks) ∧ toks.length ≤ 32 :=
    ⟨_, rfl, by decide⟩
  obtain ⟨toks, htoks, hfuel⟩ := htoks
  have hparams : sub.params.length = 1 := by
    rw [← List.length_map (f := Param.name)]
    exact congrArg List.length hfields
  have hsub : sub ∈ c.variants := hvariants ▸ List.mem_singleton_self sub
  have hbinding : ∀ b ∈ ["a"], IsName b := by
    intro b hb
    rw [List.mem_singleton.mp hb]
    exact ⟨⟨'a', rfl, by decide⟩, List.all_eq_true.mp rfl, by decide⟩
  have hknown : sealedClass c.name c.variants = ("D", [("P", ["a"])]) := by
    obtain ⟨name, isData, isSealed, params, bases, members, subclasses⟩ := sub
    rw [hvariants, hname, ← hsubName, ← hfields]
    rfl
  have hfirst : sealedFields [sealedClass c.name c.variants] c.name sub.name = some ["a"] := by
    rw [hknown, hname, hsubName]
    rfl
  rw [← registered_of_variants hsub, ← List.append_nil (registered _)] at hfirst
  refine ⟨prog, c, sub, hprog, ⟨hvariants, expr, body, hdecls⟩, ?_⟩
  rw [← List.append_nil (registered _)]
  have hdecls' : prog.decls = [] ++ .classDecl c :: [] ++ [.stmt (.matchStmt expr
    [.mk (c.name ++ "." ++ sub.name) ["a"] body])] := hdecls
  have hargs : [Expr.int "1"].length = sub.params.length := hparams.symm
  exact (sealed_match_iff htoks hfuel hprog hdecls' hsub [] hargs hbinding hparams.symm).mpr
    ⟨⟨["a"], hfirst, fun _ _ ↦ by rw [hfields]⟩, hfields⟩

/-- A case in which it is not. -/
def bindsOtherName : String :=
  "sealed class D \x7b class P(a: int) \x7d match d \x7b D.P(x) => \x7b \x7d \x7d"

/-- **A field that is not bound**: the case is written as `D::P { x }`, and the field is `a`. -/
theorem other_name_not_bound : ∃ prog c sub, parse 32 bindsOtherName = .ok prog ∧
    IsVariantCase prog c sub ["x"] ∧
      ¬VariantsAgree ⟨[], registered (.classDecl c)⟩ c.name sub [.int "1"] ["x"] := by
  have hcheck : parsedAs (matchesVariant ["x"]) (parse 32 bindsOtherName) = true := by
    decide +kernel
  obtain ⟨prog, hprog, hmatches⟩ := exists_of_parsedAs hcheck
  obtain ⟨c, sub, hcase, hname, -, hfields⟩ := exists_of_matchesVariant hmatches
  have hD : IsName c.name := by
    rw [hname]
    exact ⟨⟨'D', rfl, by decide⟩, List.all_eq_true.mp rfl, by decide⟩
  have hbinding : ∀ b ∈ ["x"], IsName b := by
    intro b hb
    rw [List.mem_singleton.mp hb]
    exact ⟨⟨'x', rfl, by decide⟩, List.all_eq_true.mp rfl, by decide⟩
  refine ⟨prog, c, sub, hprog, hcase, fun h ↦ ?_⟩
  have hlength : ["x"].length = sub.fieldNames.length := by rw [hfields]; rfl
  have hsame := (binds_iff hD hbinding hlength).mp h.2
  rw [hfields] at hsame
  exact absurd hsame (by decide)

end Agex

end Zeroxos
