import Zeroxos.Agex.Codegen
import Zeroxos.Library.Diverge

/-!
# What an expression's text depends on

The sealed classes that are known change the text of an expression in one way: a method call on a
name, `N.V(..)`, is written as a variant when some class called `N` has a variant `V`. `exprCalls`
lists these calls, as far as they are written at all, and two lists of sealed classes give the same
text exactly when every one of them is resolved alike.
-/

namespace Zeroxos

namespace Agex

/-- A method call on a name, with the number of its arguments. -/
structure NameCall where
  enumName : String
  variant : String
  arity : ℕ
deriving DecidableEq, Repr

/-- The methods that are translated, and whose arguments are not written. -/
def isRenamed (name : String) : Bool :=
  name = "uppercase" || name = "lowercase" || name = "length" || name = "len"

mutual

/-- The calls on names in what is written for an expression. -/
def exprCalls (L : List SealedClass) : Expr → List NameCall
  | .binary _ left right => exprCalls L left ++ exprCalls L right
  | .unary _ operand => exprCalls L operand
  | .call callee args =>
    if callee.ident? = some "range" then (exprsCalls L args).headD []
    else if callee.ident? = some "println" then (exprsCalls L args).flatten
    else exprCalls L callee ++ (exprsCalls L args).flatten
  | .method recv name args =>
    match recv.ident? with
    | some enumName =>
      ⟨enumName, name, args.length⟩ ::
        if isRenamed name && (sealedFields L enumName name).isNone then []
        else (exprsCalls L args).flatten
    | none =>
      exprCalls L recv ++ if isRenamed name then [] else (exprsCalls L args).flatten
  | .field recv _ => exprCalls L recv
  | .safeCall recv _ args => exprCalls L recv ++ (exprsCalls L args).flatten
  | .elvis left right => exprCalls L left ++ exprCalls L right
  | .new _ args => (exprsCalls L args).flatten
  | .cast expr _ => exprCalls L expr
  | _ => []

/-- The calls of each. -/
def exprsCalls (L : List SealedClass) : List Expr → List (List NameCall)
  | [] => []
  | e :: l => exprCalls L e :: exprsCalls L l

end

variable {L L' : List SealedClass} {fields : List String} {name variant : String}

theorem genExprs_eq_map (s : Scope) (args : List Expr) :
    genExprs s args = args.map (genExpr s) := by
  induction args with
  | nil => rfl
  | cons e args ih => rw [genExprs, ih, List.map_cons]

/-- The two lists resolve a call alike: both leave it alone, or both make it a variant, with the
same names for its arguments. -/
def SameFields (L L' : List SealedClass) (c : NameCall) : Prop :=
  match sealedFields L c.enumName c.variant, sealedFields L' c.enumName c.variant with
  | none, none => True
  | some f, some g => ∀ i < c.arity, fieldName f i = fieldName g i
  | _, _ => False

/-- Every one of the calls is resolved alike. -/
def Agree (L L' : List SealedClass) (calls : List NameCall) : Prop :=
  ∀ c ∈ calls, SameFields L L' c

theorem agree_nil : Agree L L' [] := fun _ h ↦ nomatch h

theorem agree_append {k l : List NameCall} :
    Agree L L' (k ++ l) ↔ Agree L L' k ∧ Agree L L' l := List.forall_mem_append

theorem agree_cons {c : NameCall} {l : List NameCall} :
    Agree L L' (c :: l) ↔ SameFields L L' c ∧ Agree L L' l := List.forall_mem_cons

theorem agree_flatten {args : List Expr} :
    Agree L L' (exprsCalls L args).flatten ↔ ∀ e ∈ args, Agree L L' (exprCalls L e) := by
  induction args with
  | nil => exact iff_of_true agree_nil (List.forall_mem_nil _)
  | cons e args ih => rw [exprsCalls, List.flatten_cons, agree_append, List.forall_mem_cons, ih]

/-- The names of fields have no colon in them. -/
def PlainFields (L : List SealedClass) : Prop := ∀ c ∈ L, ∀ v ∈ c.2, ∀ f ∈ v.2, ':' ∉ f.toList

theorem notMem_toString {c : Char} (hdigit : c.isDigit = false) (n : ℕ) :
    c ∉ (toString n).toList := fun hmem ↦ by
  have htoString : (toString n).toList = Nat.toDigits 10 n := Nat.toList_repr
  rw [htoString] at hmem
  exact Bool.false_ne_true
    (hdigit.symm.trans (Nat.isDigit_of_mem_toDigits (by decide) (by decide) hmem))

/-- A character that is in none of the names of the fields, and in no `field0`, `field1`, .. -/
theorem notMem_fieldName {c : Char} (hdigit : c.isDigit = false) (hfield : c ∉ "field".toList)
    {f : List String} (h : ∀ name ∈ f, c ∉ name.toList) (i : ℕ) : c ∉ (fieldName f i).toList := by
  rw [fieldName]
  cases hget : f[i]? with
  | some name => exact h name (List.mem_of_getElem? hget)
  | none =>
    rw [Option.getD_none, String.toList_append, List.mem_append, not_or]
    exact ⟨hfield, notMem_toString hdigit i⟩

theorem colon_notMem_fieldName {f : List String} (h : ∀ name ∈ f, ':' ∉ name.toList) (i : ℕ) :
    ':' ∉ (fieldName f i).toList := notMem_fieldName rfl (by decide) h i

theorem exists_of_sealedFields {f : List String} (hf : sealedFields L name variant = some f) :
    ∃ c ∈ L, ∃ v ∈ c.2, v.2 = f := by
  obtain ⟨c, hc, hfields⟩ := List.exists_of_findSome?_eq_some hf
  rw [SealedClass.fields?] at hfields
  split_ifs at hfields
  obtain ⟨v, hv, hvf⟩ := Option.map_eq_some_iff.mp hfields
  exact ⟨c, hc, v, List.mem_of_find?_eq_some hv, hvf⟩

theorem PlainFields.sealedFields (h : PlainFields L) {f : List String}
    (hf : sealedFields L name variant = some f) : ∀ field ∈ f, ':' ∉ field.toList := by
  obtain ⟨c, hc, v, hv, rfl⟩ := exists_of_sealedFields hf
  exact h c hc v hv

/-! ## Pieces of text -/

theorem alike_join {ι : Type} (sep : String) {l : List ι} {P : ι → Prop} {f g : ι → String}
    (h : ∀ a ∈ l, Alike (P a) (f a) (g a)) :
    Alike (∀ a ∈ l, P a) (join sep (l.map f)) (join sep (l.map g)) := by
  induction l with
  | nil => exact .same _ fun _ ha ↦ nomatch ha
  | cons a l ih =>
    obtain ⟨ha, hl⟩ := List.forall_mem_cons.mp h
    cases l with
    | nil => exact ha.congr List.forall_mem_singleton.symm
    | cons b l =>
      have hrest := (ha.append_same sep).append (ih hl)
      exact hrest.congr List.forall_mem_cons.symm

theorem alike_pair {P : Prop} {f g s t : String} (hf : ':' ∉ f.toList) (hg : ':' ∉ g.toList)
    (h : Alike P s t) : Alike (f = g ∧ P) (f ++ ": " ++ s) (g ++ ": " ++ t) := by
  by_cases hfg : f = g
  · subst hfg
    exact (h.same_append _).congr (iff_of_eq (true_and P)).symm |>.congr (by rw [eq_self_iff_true])
  · refine .of_diverge (fun h ↦ hfg h.1) ?_
    simp only [String.toList_append]
    exact (Diverge.of_separator hf hg fun h ↦ hfg (String.toList_inj.mp h)).append _ _

theorem nonStrings_eq_map (s : Scope) (args : List Expr) :
    nonStrings args (genExprs s args) = (args.filter fun e ↦ !e.isString).map (genExpr s) := by
  induction args with
  | nil => rfl
  | cons e args ih =>
    rw [nonStrings, genExprs, List.zip_cons_cons, List.filter_cons, List.filter_cons]
    split_ifs
    · rw [List.map_cons, List.map_cons, ← ih, nonStrings]
    · rw [← ih, nonStrings]

section Args

variable {args : List Expr}
  (h : ∀ e ∈ args, Alike (Agree L L' (exprCalls L e)) (genExpr ⟨fields, L⟩ e)
    (genExpr ⟨fields, L'⟩ e))

include h

theorem alike_args : Alike (Agree L L' (exprsCalls L args).flatten)
    (join ", " (genExprs ⟨fields, L⟩ args)) (join ", " (genExprs ⟨fields, L'⟩ args)) := by
  rw [genExprs_eq_map, genExprs_eq_map]
  exact (alike_join ", " h).congr agree_flatten.symm

theorem alike_headD : Alike (Agree L L' ((exprsCalls L args).headD []))
    ((genExprs ⟨fields, L⟩ args).headD "0") ((genExprs ⟨fields, L'⟩ args).headD "0") := by
  cases args with
  | nil => exact .same _ agree_nil
  | cons e args => exact h e List.mem_cons_self

theorem alike_newArgs : Alike (Agree L L' (exprsCalls L args).flatten)
    (join ", " (args.zipWith newArg (genExprs ⟨fields, L⟩ args)))
    (join ", " (args.zipWith newArg (genExprs ⟨fields, L'⟩ args))) := by
  have hmap : ∀ s : Scope, args.zipWith newArg (genExprs s args)
      = args.map fun e ↦ newArg e (genExpr s e) := by
    intro s
    rw [genExprs_eq_map, List.zipWith_map_right, List.zipWith_self]
  rw [hmap, hmap]
  refine (alike_join ", " fun e he ↦ ?_).congr agree_flatten.symm
  rw [newArg, newArg]
  split_ifs
  · exact (h e he).append_same _
  · exact h e he

theorem alike_println : Alike (Agree L L' (exprsCalls L args).flatten)
    (printlnText args (genExprs ⟨fields, L⟩ args))
    (printlnText args (genExprs ⟨fields, L'⟩ args)) := by
  -- a string literal has no calls
  have hcalls : Agree L L' (exprsCalls L args).flatten ↔
      ∀ e ∈ args.filter fun e ↦ !e.isString, Agree L L' (exprCalls L e) := by
    rw [agree_flatten]
    refine ⟨fun hall e he ↦ hall e (List.mem_of_mem_filter he), fun hall e he ↦ ?_⟩
    by_cases hstring : e.isString
    · cases e with
      | string value => exact agree_nil
      | _ => cases hstring
    · exact hall e (List.mem_filter.mpr ⟨he, by rw [eq_false_of_ne_true hstring]; rfl⟩)
  rw [printlnText, printlnText, nonStrings_eq_map, nonStrings_eq_map]
  dsimp only
  rw [List.isEmpty_map, List.isEmpty_map]
  cases hargs : args.isEmpty with
  | true =>
    rw [List.isEmpty_iff.mp hargs]
    exact .same _ agree_nil
  | false =>
    rw [if_neg Bool.false_ne_true, if_neg Bool.false_ne_true]
    cases hrest : (args.filter fun e ↦ !e.isString).isEmpty with
    | true =>
      refine .same _ (hcalls.mpr ?_)
      rw [List.isEmpty_iff.mp hrest]
      exact List.forall_mem_nil _
    | false =>
      have hjoin := alike_join ", " fun e (he : e ∈ args.filter fun e ↦ !e.isString) ↦
        h e (List.mem_of_mem_filter he)
      exact ((hjoin.same_append _).append_same _).congr hcalls.symm

theorem alike_variant {f g : List String} {enumName : String}
    (hf : ∀ field ∈ f, ':' ∉ field.toList) (hg : ∀ field ∈ g, ':' ∉ field.toList) :
    Alike ((∀ i < args.length, fieldName f i = fieldName g i) ∧
        Agree L L' (exprsCalls L args).flatten)
      (variantText enumName variant f (genExprs ⟨fields, L⟩ args))
      (variantText enumName variant g (genExprs ⟨fields, L'⟩ args)) := by
  have hpairs : ∀ (s : Scope) (names : List String),
      ((genExprs s args).mapIdx fun i arg ↦ fieldName names i ++ ": " ++ arg)
        = args.zipIdx.map fun p ↦ fieldName names p.2 ++ ": " ++ genExpr s p.1 := by
    intro s names
    rw [genExprs_eq_map, List.mapIdx_eq_zipIdx_map, List.zipIdx_map, List.map_map]
    rfl
  have hjoin := alike_join ", " fun p (hp : p ∈ args.zipIdx) ↦
    alike_pair (colon_notMem_fieldName hf p.2) (colon_notMem_fieldName hg p.2)
      (h p.1 (List.fst_mem_of_mem_zipIdx hp))
  rw [variantText, variantText, hpairs, hpairs]
  refine ((hjoin.same_append _).append_same _).congr ?_
  rw [agree_flatten]
  constructor
  · refine fun hall ↦ ⟨fun i hi ↦ ?_, fun e he ↦ ?_⟩
    · exact (hall (args[i], i) (List.mem_zipIdx_iff_getElem?.mpr (List.getElem?_eq_getElem hi))).1
    · obtain ⟨i, hi⟩ := List.mem_iff_getElem?.mp he
      exact (hall (e, i) (List.mem_zipIdx_iff_getElem?.mpr hi)).2
  · rintro ⟨hnames, hall⟩ p hp
    have hget := List.mem_zipIdx_iff_getElem?.mp hp
    obtain ⟨hi, -⟩ := List.getElem?_eq_some_iff.mp hget
    exact ⟨hnames p.2 hi, hall p.1 (List.mem_of_getElem? hget)⟩

end Args

theorem methodText_of_renamed (h : isRenamed name = true) : ∃ call : String, ∀ recv args,
    methodText recv name args = recv ++ ("." ++ call) := by
  simp only [isRenamed, Bool.or_eq_true, decide_eq_true_eq] at h
  rcases h with ((rfl | rfl) | rfl) | rfl
  · exact ⟨"to_uppercase()", fun _ _ ↦ rfl⟩
  · exact ⟨"to_lowercase()", fun _ _ ↦ rfl⟩
  · exact ⟨"len()", fun _ _ ↦ rfl⟩
  · exact ⟨"len()", fun _ _ ↦ rfl⟩

theorem methodText_of_not_renamed (h : isRenamed name = false) (recv : String)
    (args : List String) :
    methodText recv name args = recv ++ "." ++ name ++ "(" ++ join ", " args ++ ")" := by
  simp only [isRenamed, Bool.or_eq_false_iff, decide_eq_false_iff_not] at h
  obtain ⟨⟨⟨hupper, hlower⟩, hlength⟩, hlen⟩ := h
  rw [methodText, if_neg hupper, if_neg hlower, if_neg (not_or.mpr ⟨hlength, hlen⟩)]

theorem exists_methodText (recv name : String) (args : List String) :
    ∃ call, methodText recv name args = recv ++ ("." ++ call) := by
  cases hrenamed : isRenamed name with
  | true =>
    obtain ⟨call, hcall⟩ := methodText_of_renamed hrenamed
    exact ⟨call, hcall recv args⟩
  | false =>
    refine ⟨name ++ "(" ++ join ", " args ++ ")", ?_⟩
    rw [methodText_of_not_renamed hrenamed]
    simp only [String.append_assoc]

/-- A variant and a method call part behind the name. -/
theorem alike_variant_method {P : Prop} {f : List String} {args args' : List String}
    (hP : ¬P) (enumName : String) :
    Alike P (variantText enumName variant f args)
      (methodText (genExpr ⟨fields, L⟩ (.ident enumName)) variant args') := by
  obtain ⟨rest, hrest⟩ := exists_methodText (genExpr ⟨fields, L⟩ (.ident enumName)) variant args'
  refine .of_diverge hP ?_
  rw [hrest, variantText, genExpr]
  simp only [String.toList_append, List.append_assoc]
  split_ifs
  · rw [String.toList_append]
    exact .symm (Diverge.of_front (List.cons_ne_nil _ _) (by decide))
  · exact Diverge.prepend _ (.here (by decide))

theorem eq_ident_of_ident? {e : Expr} (h : e.ident? = some name) : e = .ident name := by
  cases e with
  | ident n => rw [Option.some.inj h]
  | _ => cases h

theorem alike_method {recv : Expr} {args : List Expr} (hL : PlainFields L) (hL' : PlainFields L')
    (hrecv : Alike (Agree L L' (exprCalls L recv)) (genExpr ⟨fields, L⟩ recv)
      (genExpr ⟨fields, L'⟩ recv))
    (hargs : ∀ e ∈ args, Alike (Agree L L' (exprCalls L e)) (genExpr ⟨fields, L⟩ e)
      (genExpr ⟨fields, L'⟩ e)) :
    Alike (Agree L L' (exprCalls L (.method recv name args)))
      (genExpr ⟨fields, L⟩ (.method recv name args))
      (genExpr ⟨fields, L'⟩ (.method recv name args)) := by
  -- the text when nothing is resolved
  have hmethod : Alike (Agree L L' (exprCalls L recv) ∧
        Agree L L' (if isRenamed name then [] else (exprsCalls L args).flatten))
      (methodText (genExpr ⟨fields, L⟩ recv) name (genExprs ⟨fields, L⟩ args))
      (methodText (genExpr ⟨fields, L'⟩ recv) name (genExprs ⟨fields, L'⟩ args)) := by
    cases hrenamed : isRenamed name with
    | true =>
      obtain ⟨call, hcall⟩ := methodText_of_renamed hrenamed
      rw [hcall, hcall]
      exact (hrecv.append_same _).congr (and_iff_left agree_nil).symm
    | false =>
      rw [methodText_of_not_renamed hrenamed, methodText_of_not_renamed hrenamed]
      exact (((hrecv.append_same _).append_same _).append_same _).append (alike_args hargs)
        |>.append_same _
  rw [exprCalls, genExpr, genExpr]
  cases hident : recv.ident? with
  | none =>
    rw [Option.bind_none]
    exact hmethod.congr agree_append.symm
  | some enumName =>
    obtain rfl := eq_ident_of_ident? hident
    rw [Option.bind_some, Option.bind_some, Option.getD_some]
    dsimp only
    rw [agree_cons, SameFields]
    dsimp only
    cases hf : sealedFields L enumName name with
    | none =>
      cases hg : sealedFields L' enumName name with
      | none =>
        rw [Option.isNone_none, Bool.and_true]
        exact hmethod.congr (and_congr_left' (iff_of_true agree_nil trivial))
      | some g => exact (alike_variant_method (fun h ↦ And.left h) enumName).symm
    | some f =>
      rw [Option.isNone_some, Bool.and_false, if_neg Bool.false_ne_true]
      cases hg : sealedFields L' enumName name with
      | none => exact alike_variant_method (fun h ↦ h.1) enumName
      | some g => exact alike_variant hargs (hL.sealedFields hf) (hL'.sealedFields hg)

mutual

/-- **Two texts of one expression** are the same exactly when its calls on names are resolved
alike. -/
theorem genExpr_alike (hL : PlainFields L) (hL' : PlainFields L') : (e : Expr) →
    Alike (Agree L L' (exprCalls L e)) (genExpr ⟨fields, L⟩ e) (genExpr ⟨fields, L'⟩ e)
  | .int value => .same value agree_nil
  | .float value => .same value agree_nil
  | .string _ => .same _ agree_nil
  | .bool _ => .same _ agree_nil
  | .null => .same _ agree_nil
  | .this => .same _ agree_nil
  | .ident _ => .same _ agree_nil
  | .binary op left right => by
    have hleft := genExpr_alike hL hL' left
    have hright := genExpr_alike hL hL' right
    rw [exprCalls, genExpr, genExpr]
    split_ifs
    · exact (((hleft.same_append _).append_same _).append hright).append_same _ |>.congr
        agree_append.symm
    · exact (((((hleft.same_append _).append_same _).append_same _).append_same _).append
        hright).append_same _ |>.congr agree_append.symm
  | .unary op operand => by
    have h := genExpr_alike hL hL' operand
    rw [exprCalls, genExpr, genExpr]
    split_ifs
    · exact h.same_append _
    · exact (h.same_append _).append_same _
  | .call callee args => by
    have hargs := genExprs_alike hL hL' args
    rw [exprCalls, genExpr, genExpr]
    split_ifs
    · exact ((alike_headD hargs).same_append _).append_same _
    · exact alike_println hargs
    · exact (((genExpr_alike hL hL' callee).append_same _).append (alike_args hargs)).append_same _
        |>.congr agree_append.symm
  | .method recv name args =>
    alike_method hL hL' (genExpr_alike hL hL' recv) (genExprs_alike hL hL' args)
  | .field recv name => by
    have h := genExpr_alike hL hL' recv
    rw [exprCalls, genExpr, genExpr, fieldText, fieldText]
    split_ifs
    · exact h.append_same _
    · exact (h.append_same _).append_same _
  | .safeCall recv name args => by
    have h := genExpr_alike hL hL' recv
    have hargs := genExprs_alike hL hL' args
    rw [exprCalls, genExpr, genExpr]
    have hrecv := (h.append_same ".as_ref().and_then(|r| Some(r.").append_same name
    exact ((hrecv.append_same _).append (alike_args hargs)).append_same _
      |>.congr agree_append.symm
  | .elvis left right => by
    have hleft := genExpr_alike hL hL' left
    have hright := genExpr_alike hL hL' right
    rw [exprCalls, genExpr, genExpr]
    exact ((hleft.append_same _).append hright).append_same _ |>.congr agree_append.symm
  | .new typeName args => by
    have hargs := genExprs_alike hL hL' args
    rw [exprCalls, genExpr, genExpr]
    exact ((alike_newArgs hargs).same_append _).append_same _
  | .cast expr typeName => by
    have h := genExpr_alike hL hL' expr
    rw [exprCalls, genExpr, genExpr]
    exact (h.append_same _).append_same _

theorem genExprs_alike (hL : PlainFields L) (hL' : PlainFields L') : (args : List Expr) →
    ∀ e ∈ args, Alike (Agree L L' (exprCalls L e)) (genExpr ⟨fields, L⟩ e)
      (genExpr ⟨fields, L'⟩ e)
  | [] => fun _ he ↦ nomatch he
  | a :: args => List.forall_mem_cons.mpr ⟨genExpr_alike hL hL' a, genExprs_alike hL hL' args⟩

end

end Agex

end Zeroxos
