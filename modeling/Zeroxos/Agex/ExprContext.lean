import Zeroxos.Agex.SealedCalls

/-!
# Places in an expression

An expression stands in another at the end of a path, from the outside to the inside. A step of the
path is a `Layer`: the expression around, with a hole. What is written for the expression around has
the text of what is in the hole somewhere in it, for every layer but a few: the arguments behind the
first of `range` and those of a renamed method are left out, and so are the names of `range`,
`println` and of a sealed class whose variant is made.
-/

namespace Zeroxos

namespace Agex

/-- An expression with a hole. -/
inductive Layer
  | binaryLeft (op : String) (right : Expr)
  | binaryRight (op : String) (left : Expr)
  | unary (op : String)
  | callee (args : List Expr)
  | callArg (f : Expr) (pre post : List Expr)
  | recv (name : String) (args : List Expr)
  | methodArg (object : Expr) (name : String) (pre post : List Expr)
  | fieldRecv (name : String)
  | safeRecv (name : String) (args : List Expr)
  | safeArg (object : Expr) (name : String) (pre post : List Expr)
  | elvisLeft (right : Expr)
  | elvisRight (left : Expr)
  | newArg (typeName : String) (pre post : List Expr)
  | cast (typeName : String)

namespace Layer

/-- The expression, with something in the hole. -/
def fill : Layer → Expr → Expr
  | binaryLeft op right, e => .binary op e right
  | binaryRight op left, e => .binary op left e
  | unary op, e => .unary op e
  | callee args, e => .call e args
  | callArg f pre post, e => .call f (pre ++ e :: post)
  | recv name args, e => .method e name args
  | methodArg object name pre post, e => .method object name (pre ++ e :: post)
  | fieldRecv name, e => .field e name
  | safeRecv name args, e => .safeCall e name args
  | safeArg object name pre post, e => .safeCall object name (pre ++ e :: post)
  | elvisLeft right, e => .elvis e right
  | elvisRight left, e => .elvis left e
  | newArg typeName pre post, e => .new typeName (pre ++ e :: post)
  | cast typeName, e => .cast e typeName

/-- The fields of the variant that a method call on an expression makes, if it makes one. -/
def variantFields (s : Scope) (object : Expr) (name : String) : Option (List String) :=
  object.ident?.bind fun enumName ↦ sealedFields s.sealedClasses enumName name

/-- What is in the hole is not written. -/
def Drops (s : Scope) : Layer → Prop
  | callArg f pre _ => f.ident? = some "range" ∧ pre ≠ []
  | methodArg object name _ _ => isRenamed name = true ∧ variantFields s object name = none
  | _ => False

/-- What is in the hole is a name that says how the rest is written. -/
def Consumes (s : Scope) : Layer → Expr → Prop
  | callee _, e => e.ident? = some "range" ∨ e.ident? = some "println"
  | recv name _, e => variantFields s e name ≠ none
  | _, _ => False

theorem fill_isString (k : Layer) (e : Expr) : (k.fill e).isString = false := by
  cases k <;> rfl

theorem fill_ident? (k : Layer) (e : Expr) : (k.fill e).ident? = none := by
  cases k <;> rfl

end Layer

/-- The expression at the end of a path. -/
def plug : List Layer → Expr → Expr
  | [], e => e
  | k :: ks, e => k.fill (plug ks e)

theorem plug_append (ks ks' : List Layer) (e : Expr) :
    plug (ks ++ ks') e = plug ks (plug ks' e) := by
  induction ks with
  | nil => rfl
  | cons k ks ih => exact congrArg k.fill ih

/-! ## Text around a hole -/

variable {s : Scope} {b : Bool} {P : Expr → Prop} {T : Expr → String}

/-- The text of an expression, for a string literal without the quotes. -/
def argText (s : Scope) : Expr → String
  | .string value => value
  | e => genExpr s e

theorem argText_of_not_string {e : Expr} (h : e.isString = false) : argText s e = genExpr s e := by
  cases e with
  | string value => cases h
  | _ => rfl

/-- The text of each of these expressions stands between the same two texts. -/
def Around (s : Scope) (b : Bool) (P : Expr → Prop) (T : Expr → String) : Prop :=
  ∃ p q, ∀ e, e.isString = b → P e → T e = p ++ argText s e ++ q

namespace Around

theorem of_genExpr (h : ∃ p q, ∀ e, e.isString = b → P e → T e = p ++ genExpr s e ++ q) :
    Around s b P T := by
  obtain ⟨p, q, h⟩ := h
  cases b with
  | false => exact ⟨p, q, fun e he hP ↦ argText_of_not_string (s := s) he ▸ h e he hP⟩
  | true =>
    refine ⟨p ++ "\"", "\"" ++ q, fun e he hP ↦ ?_⟩
    rw [h e he hP]
    cases e with
    | string value =>
      rw [genExpr, argText]
      simp only [String.append_assoc]
    | _ => cases he

theorem congr {T' : Expr → String} (h : Around s b P T)
    (hT : ∀ e, e.isString = b → P e → T' e = T e) : Around s b P T' := by
  obtain ⟨p, q, hpq⟩ := h
  exact ⟨p, q, fun e he hP ↦ (hT e he hP).trans (hpq e he hP)⟩

end Around

theorem join_around (sep : String) (l r : List String) :
    ∃ p q, ∀ x, join sep (l ++ x :: r) = p ++ x ++ q := by
  induction l with
  | nil =>
    cases r with
    | nil => exact ⟨"", "", fun x ↦ by simp [join]⟩
    | cons t r =>
      refine ⟨"", sep ++ join sep (t :: r), fun x ↦ ?_⟩
      rw [List.nil_append, join, String.empty_append, String.append_assoc]
  | cons t l ih =>
    obtain ⟨p, q, hpq⟩ := ih
    refine ⟨t ++ sep ++ p, q, fun x ↦ ?_⟩
    have hcons : join sep (t :: (l ++ x :: r)) = t ++ sep ++ join sep (l ++ x :: r) := by
      cases l <;> rfl
    rw [List.cons_append, hcons, hpq]
    simp only [String.append_assoc]

theorem genExprs_middle (s : Scope) (pre post : List Expr) (e : Expr) :
    genExprs s (pre ++ e :: post) = genExprs s pre ++ genExpr s e :: genExprs s post := by
  rw [genExprs_eq_map, genExprs_eq_map, genExprs_eq_map, List.map_append, List.map_cons]

theorem args_around (s : Scope) (b : Bool) (P : Expr → Prop) (pre post : List Expr)
    (head tail : String) :
    Around s b P fun e ↦ head ++ join ", " (genExprs s (pre ++ e :: post)) ++ tail := by
  obtain ⟨p, q, hpq⟩ := join_around ", " (genExprs s pre) (genExprs s post)
  refine .of_genExpr ⟨head ++ p, q ++ tail, fun e _ _ ↦ ?_⟩
  rw [genExprs_middle, hpq]
  simp only [String.append_assoc]

theorem filter_middle (p : Expr → Bool) (pre post : List Expr) (e : Expr) :
    (pre ++ e :: post).filter p = pre.filter p ++ (if p e then [e] else []) ++ post.filter p := by
  rw [List.filter_append, List.filter_cons]
  split_ifs
  · rw [List.append_assoc, List.singleton_append]
  · rw [List.append_nil]

theorem placeholder_of_not_string {e : Expr} (h : e.isString = false) :
    placeholder e = "\x7b\x7d" := by
  cases e with
  | string value => cases h
  | _ => rfl

theorem println_around (s : Scope) (b : Bool) (P : Expr → Prop) (pre post : List Expr) :
    Around s b P fun e ↦ printlnText (pre ++ e :: post) (genExprs s (pre ++ e :: post)) := by
  have hempty : ∀ e, (pre ++ e :: post).isEmpty = false := fun e ↦ by cases pre <;> rfl
  have hfmt : ∀ e, (pre ++ e :: post).map placeholder
      = pre.map placeholder ++ placeholder e :: post.map placeholder := fun e ↦ by
    rw [List.map_append, List.map_cons]
  cases b with
  | false =>
    -- its text is among those behind the format string
    obtain ⟨p, q, hpq⟩ := join_around ", "
      ((pre.filter fun e ↦ !e.isString).map (genExpr s))
      ((post.filter fun e ↦ !e.isString).map (genExpr s))
    refine .of_genExpr ⟨"println!(\"" ++ join " " (pre.map placeholder ++ "\x7b\x7d" ::
      post.map placeholder) ++ "\", " ++ p, q ++ ")", fun e he _ ↦ ?_⟩
    have hrest : nonStrings (pre ++ e :: post) (genExprs s (pre ++ e :: post))
        = (pre.filter fun e ↦ !e.isString).map (genExpr s) ++ genExpr s e ::
          (post.filter fun e ↦ !e.isString).map (genExpr s) := by
      rw [nonStrings_eq_map, filter_middle, he, if_pos (by rfl), List.map_append, List.map_append,
        List.map_singleton, List.append_assoc, List.singleton_append]
    have hsome : ((pre.filter fun e ↦ !e.isString).map (genExpr s) ++ genExpr s e ::
        (post.filter fun e ↦ !e.isString).map (genExpr s)).isEmpty = false := by
      rw [List.isEmpty_eq_false_iff]
      exact List.append_ne_nil_of_right_ne_nil _ (List.cons_ne_nil _ _)
    rw [printlnText, hempty, if_neg Bool.false_ne_true]
    dsimp only
    rw [hrest, hsome, if_neg Bool.false_ne_true, hfmt, placeholder_of_not_string he, hpq]
    simp only [String.append_assoc]
  | true =>
    -- its characters are in the format string
    obtain ⟨p, q, hpq⟩ := join_around " " (pre.map placeholder) (post.map placeholder)
    obtain ⟨rest, hrest⟩ : ∃ rest, ∀ e, e.isString = true →
        nonStrings (pre ++ e :: post) (genExprs s (pre ++ e :: post)) = rest := by
      refine ⟨((pre.filter fun e : Expr ↦ !e.isString) ++ [] ++ post.filter fun e : Expr ↦
        !e.isString).map (genExpr s), fun e he ↦ ?_⟩
      rw [nonStrings_eq_map, filter_middle, he, if_neg (by decide)]
    have hplace : ∀ e, e.isString = true → placeholder e = argText s e := by
      intro e he
      cases e with
      | string value => rfl
      | _ => cases he
    refine ⟨"println!(\"" ++ p, q ++ (if rest.isEmpty then "\")" else
      "\", " ++ join ", " rest ++ ")"), fun e he _ ↦ ?_⟩
    dsimp only
    rw [printlnText, hempty, if_neg Bool.false_ne_true]
    dsimp only
    rw [hrest e he, hfmt, hplace e he, hpq]
    split_ifs <;> simp only [String.append_assoc]

theorem variant_around (s : Scope) (b : Bool) (P : Expr → Prop) (enumName variant : String)
    (fields : List String) (pre post : List Expr) :
    Around s b P fun e ↦ variantText enumName variant fields (genExprs s (pre ++ e :: post)) := by
  obtain ⟨p, q, hpq⟩ := join_around ", "
    ((genExprs s pre).mapIdx fun i arg ↦ fieldName fields i ++ ": " ++ arg)
    ((genExprs s post).mapIdx fun i arg ↦
      fieldName fields (i + 1 + (genExprs s pre).length) ++ ": " ++ arg)
  refine .of_genExpr ⟨enumName ++ "::" ++ variant ++ " \x7b " ++ p
    ++ (fieldName fields (genExprs s pre).length ++ ": "), q ++ " \x7d", fun e _ _ ↦ ?_⟩
  rw [variantText, genExprs_middle, List.mapIdx_append, List.mapIdx_cons, Nat.zero_add, hpq]
  simp only [String.append_assoc]

theorem genExpr_new (s : Scope) (typeName : String) (args : List Expr) :
    genExpr s (.new typeName args)
      = typeName ++ "::new(" ++ join ", " (args.map fun e ↦ newArg e (genExpr s e)) ++ ")" := by
  rw [genExpr, genExprs_eq_map, List.zipWith_map_right, List.zipWith_self]

theorem new_around (s : Scope) (b : Bool) (P : Expr → Prop) (typeName : String)
    (pre post : List Expr) :
    Around s b P fun e ↦ genExpr s (.new typeName (pre ++ e :: post)) := by
  obtain ⟨p, q, hpq⟩ := join_around ", " (pre.map fun e ↦ newArg e (genExpr s e))
    (post.map fun e ↦ newArg e (genExpr s e))
  refine .of_genExpr ⟨typeName ++ "::new(" ++ p, (if b then ".to_string()" else "") ++ q ++ ")",
    fun e he _ ↦ ?_⟩
  have htext : newArg e (genExpr s e) = genExpr s e ++ if b then ".to_string()" else "" := by
    rw [newArg, he]
    split_ifs
    · rfl
    · exact String.append_empty.symm
  rw [genExpr_new, List.map_append, List.map_cons, hpq, htext]
  simp only [String.append_assoc]

/-- An argument of a call; `range` writes the first one only. -/
theorem Layer.callArg_text {f : Expr} {pre post : List Expr}
    (hk : ¬(callArg f pre post).Drops s) (b : Bool) :
    Around s b (fun e ↦ ¬(callArg f pre post).Consumes s e)
      fun e ↦ genExpr s ((callArg f pre post).fill e) := by
  by_cases hrange : f.ident? = some "range"
  · have hpre : pre = [] := by_contra fun h ↦ hk ⟨hrange, h⟩
    subst hpre
    refine .of_genExpr ⟨"(0..", ")", fun e _ _ ↦ ?_⟩
    rw [fill, genExpr, if_pos hrange]
    rfl
  · by_cases hprint : f.ident? = some "println"
    · refine (println_around s b _ pre post).congr fun e _ _ ↦ ?_
      rw [fill, genExpr, if_neg hrange, if_pos hprint]
    · refine (args_around s b _ pre post (genExpr s f ++ "(") ")").congr fun e _ _ ↦ ?_
      rw [fill, genExpr, if_neg hrange, if_neg hprint]

/-- The object of a method call stands at its beginning, and the rest does not depend on it. -/
theorem methodText_eq_append (name : String) (args : List String) :
    ∃ call, ∀ object, methodText object name args = object ++ call := by
  cases hrenamed : isRenamed name with
  | true =>
    obtain ⟨call, hcall⟩ := methodText_of_renamed hrenamed
    exact ⟨"." ++ call, fun object ↦ hcall object _⟩
  | false =>
    refine ⟨"." ++ name ++ "(" ++ join ", " args ++ ")", fun object ↦ ?_⟩
    rw [methodText_of_not_renamed hrenamed]
    simp only [String.append_assoc]

theorem genExpr_method {e : Expr} {name : String} (h : Layer.variantFields s e name = none)
    (args : List Expr) :
    genExpr s (.method e name args) = methodText (genExpr s e) name (genExprs s args) := by
  rw [Layer.variantFields] at h
  rw [genExpr, h]

theorem Layer.recv_text (name : String) (args : List Expr) (b : Bool) :
    Around s b (fun e ↦ ¬(recv name args).Consumes s e)
      fun e ↦ genExpr s ((recv name args).fill e) := by
  obtain ⟨call, hcall⟩ := methodText_eq_append name (genExprs s args)
  refine .of_genExpr ⟨"", call, fun e _ he ↦ ?_⟩
  rw [Consumes, not_not] at he
  rw [fill, genExpr_method he, hcall, String.empty_append]

theorem Layer.methodArg_text {object : Expr} {name : String} {pre post : List Expr}
    (hk : ¬(methodArg object name pre post).Drops s) (b : Bool) :
    Around s b (fun e ↦ ¬(methodArg object name pre post).Consumes s e)
      fun e ↦ genExpr s ((methodArg object name pre post).fill e) := by
  cases hvariant : variantFields s object name with
  | some fields =>
    refine (variant_around s b _ (object.ident?.getD "") name fields pre post).congr fun e _ _ ↦ ?_
    rw [variantFields] at hvariant
    rw [fill, genExpr, hvariant]
  | none =>
    have hrenamed : isRenamed name = false := by
      by_contra h
      exact hk ⟨eq_true_of_ne_false h, hvariant⟩
    refine (args_around s b _ pre post (genExpr s object ++ "." ++ name ++ "(") ")").congr
      fun e _ _ ↦ ?_
    rw [variantFields] at hvariant
    rw [fill, genExpr, hvariant]
    dsimp only
    rw [methodText_of_not_renamed hrenamed]

/-- **What is in the hole is written**, unless it is dropped or consumed. -/
theorem Layer.text {k : Layer} (hk : ¬k.Drops s) (b : Bool) :
    Around s b (fun e ↦ ¬k.Consumes s e) fun e ↦ genExpr s (k.fill e) := by
  cases k with
  | binaryLeft op right =>
    refine .of_genExpr ?_
    by_cases hformat : op = "+" ∧ (b = true ∨ right.isString = true)
    · refine ⟨"format!(\"\x7b\x7d\x7b\x7d\", ", ", " ++ genExpr s right ++ ")", fun e he _ ↦ ?_⟩
      rw [fill, genExpr, he, if_pos hformat]
      simp only [String.append_assoc]
    · refine ⟨"(", " " ++ op ++ " " ++ genExpr s right ++ ")", fun e he _ ↦ ?_⟩
      rw [fill, genExpr, he, if_neg hformat]
      simp only [String.append_assoc]
  | binaryRight op left =>
    refine .of_genExpr ?_
    by_cases hformat : op = "+" ∧ (left.isString = true ∨ b = true)
    · refine ⟨"format!(\"\x7b\x7d\x7b\x7d\", " ++ genExpr s left ++ ", ", ")", fun e he _ ↦ ?_⟩
      rw [fill, genExpr, he, if_pos hformat]
    · refine ⟨"(" ++ genExpr s left ++ " " ++ op ++ " ", ")", fun e he _ ↦ ?_⟩
      rw [fill, genExpr, he, if_neg hformat]
  | unary op =>
    refine .of_genExpr ?_
    by_cases hamp : op = "&"
    · refine ⟨"&", "", fun e _ _ ↦ ?_⟩
      rw [fill, genExpr, if_pos hamp, String.append_empty]
    · refine ⟨"(" ++ op, ")", fun e _ _ ↦ ?_⟩
      rw [fill, genExpr, if_neg hamp]
  | callee args =>
    refine .of_genExpr ⟨"", "(" ++ join ", " (genExprs s args) ++ ")", fun e _ he ↦ ?_⟩
    rw [Consumes, not_or] at he
    rw [fill, genExpr, if_neg he.1, if_neg he.2, String.empty_append]
    simp only [String.append_assoc]
  | callArg f pre post => exact callArg_text hk b
  | recv name args => exact recv_text name args b
  | methodArg object name pre post => exact methodArg_text hk b
  | fieldRecv name =>
    refine .of_genExpr ?_
    by_cases hlen : name = "length" ∨ name = "len"
    · refine ⟨"", ".len()", fun e _ _ ↦ ?_⟩
      rw [fill, genExpr, fieldText, if_pos hlen, String.empty_append]
    · refine ⟨"", "." ++ name, fun e _ _ ↦ ?_⟩
      rw [fill, genExpr, fieldText, if_neg hlen, String.empty_append, String.append_assoc]
  | safeRecv name args =>
    refine .of_genExpr ⟨"", ".as_ref().and_then(|r| Some(r." ++ name ++ "("
      ++ join ", " (genExprs s args) ++ ")))", fun e _ _ ↦ ?_⟩
    rw [fill, genExpr, String.empty_append]
    simp only [String.append_assoc]
  | safeArg object name pre post =>
    refine (args_around s b _ pre post
      (genExpr s object ++ ".as_ref().and_then(|r| Some(r." ++ name ++ "(") ")))").congr
      fun e _ _ ↦ ?_
    rw [fill, genExpr]
  | elvisLeft right =>
    refine .of_genExpr ⟨"", ".unwrap_or(" ++ genExpr s right ++ ")", fun e _ _ ↦ ?_⟩
    rw [fill, genExpr, String.empty_append]
    simp only [String.append_assoc]
  | elvisRight left =>
    refine .of_genExpr ⟨genExpr s left ++ ".unwrap_or(", ")", fun e _ _ ↦ ?_⟩
    rw [fill, genExpr]
  | newArg typeName pre post => exact new_around s b _ typeName pre post
  | cast typeName =>
    refine .of_genExpr ⟨"", " as " ++ typeName, fun e _ _ ↦ ?_⟩
    rw [fill, genExpr, String.empty_append, String.append_assoc]

/-- The text of what a loop goes over a range to, if the expression is a range. -/
def rangeText (s : Scope) (e : Expr) : Option String :=
  e.rangeArgs?.map fun args ↦ (genExprs s args).headD "0"

theorem forHead_eq (var : String) (e : Expr) : forHead var e s =
    match rangeText s e with
    | some stop => "for " ++ var ++ " in 0.." ++ stop ++ " \x7b"
    | none => "for " ++ var ++ " in " ++ genExpr s e ++ " \x7b" := by
  rw [forHead, rangeText]
  cases e.rangeArgs? <;> rfl

theorem rangeArgs?_eq_none {e : Expr} (h : ∀ f args, e = .call f args → f.ident? ≠ some "range") :
    e.rangeArgs? = none := by
  cases e with
  | call f args => exact if_neg (h f args rfl)
  | _ => rfl

/-- **In the head of a loop** what is in the hole is written as well. -/
theorem Layer.head {k : Layer} (hk : ¬k.Drops s) (b : Bool) (var : String) :
    Around s b (fun e ↦ ¬k.Consumes s e) fun e ↦ forHead var (k.fill e) s := by
  by_cases hrange : ∃ f pre post, k = .callArg f pre post ∧ f.ident? = some "range"
  · obtain ⟨f, pre, post, rfl, hf⟩ := hrange
    have hpre : pre = [] := by_contra fun h ↦ hk ⟨hf, h⟩
    subst hpre
    refine .of_genExpr ⟨"for " ++ var ++ " in 0..", " \x7b", fun e _ _ ↦ ?_⟩
    have hargs : ((Layer.callArg f [] post).fill e).rangeArgs? = some (e :: post) := if_pos hf
    rw [forHead_eq, rangeText, hargs]
    rfl
  · -- any other layer is no range
    obtain ⟨p, q, hpq⟩ := k.text hk b
    refine ⟨"for " ++ var ++ " in " ++ p, q ++ " \x7b", fun e he hP ↦ ?_⟩
    have hnone : (k.fill e).rangeArgs? = none := by
      refine rangeArgs?_eq_none fun f args heq hf ↦ ?_
      cases k with
      | callArg g pre post =>
        cases heq
        exact hrange ⟨_, _, _, rfl, hf⟩
      | callee args =>
        cases heq
        exact hP (.inl hf)
      | _ => cases heq
    dsimp only at hpq ⊢
    rw [forHead_eq, rangeText, hnone]
    dsimp only [Option.map_none]
    rw [hpq e he hP]
    simp only [String.append_assoc]

/-! ## Text that does not depend on the hole -/

/-- Two expressions that are neither literals nor names are written alike, wherever they stand. -/
structure SameText (s : Scope) (x y : Expr) : Prop where
  string : x.isString = false ∧ y.isString = false
  ident : x.ident? = none ∧ y.ident? = none
  text : genExpr s x = genExpr s y
  range : rangeText s x = rangeText s y

variable {x y : Expr}

theorem SameText.genExprs (h : SameText s x y) (pre post : List Expr) :
    genExprs s (pre ++ x :: post) = genExprs s (pre ++ y :: post) := by
  rw [genExprs_middle, genExprs_middle, h.text]

theorem printlnText_congr (h : SameText s x y) (pre post : List Expr) :
    printlnText (pre ++ x :: post) (Agex.genExprs s (pre ++ x :: post))
      = printlnText (pre ++ y :: post) (Agex.genExprs s (pre ++ y :: post)) := by
  have hplace : (pre ++ x :: post).map placeholder = (pre ++ y :: post).map placeholder := by
    rw [List.map_append, List.map_append, List.map_cons, List.map_cons,
      placeholder_of_not_string h.string.1, placeholder_of_not_string h.string.2]
  have hrest : nonStrings (pre ++ x :: post) (Agex.genExprs s (pre ++ x :: post))
      = nonStrings (pre ++ y :: post) (Agex.genExprs s (pre ++ y :: post)) := by
    rw [nonStrings_eq_map, nonStrings_eq_map, filter_middle, filter_middle, h.string.1, h.string.2,
      if_pos (by rfl), if_pos (by rfl)]
    simp only [List.map_append, List.map_singleton, h.text]
  have hempty : (pre ++ x :: post).isEmpty = (pre ++ y :: post).isEmpty := by cases pre <;> rfl
  rw [printlnText, printlnText, hplace, hrest, hempty]

theorem SameText.fill (h : SameText s x y) (k : Layer) : SameText s (k.fill x) (k.fill y) := by
  refine ⟨⟨k.fill_isString x, k.fill_isString y⟩, ⟨k.fill_ident? x, k.fill_ident? y⟩, ?_, ?_⟩
  · cases k with
    | callArg f pre post =>
      have hprint := printlnText_congr h pre post
      rw [h.genExprs] at hprint
      simp only [Layer.fill, genExpr, h.genExprs, hprint]
    | newArg typeName pre post =>
      simp only [Layer.fill, genExpr_new, List.map_append, List.map_cons, newArg, h.string.1,
        h.string.2, h.text]
    | _ =>
      simp only [Layer.fill, genExpr, h.string.1, h.string.2, h.ident.1, h.ident.2, h.text,
        h.genExprs, Option.bind_none]
  · cases k with
    | callArg f pre post =>
      simp only [rangeText, Layer.fill, Expr.rangeArgs?]
      split_ifs
      · simp only [Option.map_some, h.genExprs]
      · rfl
    | callee args => simp only [rangeText, Layer.fill, Expr.rangeArgs?, h.ident.1, h.ident.2]
    | _ => rfl

theorem SameText.plug (h : SameText s x y) (ks : List Layer) :
    SameText s (plug ks x) (plug ks y) := by
  induction ks with
  | nil => exact h
  | cons k ks ih => exact ih.fill k

theorem SameText.forHead (h : SameText s x y) (var : String) :
    forHead var x s = forHead var y s := by
  rw [forHead_eq, forHead_eq, h.range, h.text]

theorem Layer.not_consumes {k : Layer} {e : Expr} (h : e.ident? = none) : ¬k.Consumes s e := by
  cases k with
  | callee args => simp [Consumes, h]
  | recv name args => simp [Consumes, variantFields, h]
  | _ => exact fun hc ↦ hc

/-- A path does not lead to a literal or a name, unless it is over at once. -/
theorem plug_concat (ks : List Layer) (k : Layer) (e : Expr) :
    (plug (ks ++ [k]) e).isString = false ∧ (plug (ks ++ [k]) e).ident? = none := by
  cases ks with
  | nil => exact ⟨k.fill_isString e, k.fill_ident? e⟩
  | cons k' ks => exact ⟨k'.fill_isString _, k'.fill_ident? _⟩

/-- **What stands at the end of a path is written** when no layer drops it and the last does not
consume it. -/
theorem path_around {ks : List Layer} {k : Layer}
    (hT : ∀ k : Layer, ¬k.Drops s → ∀ b, Around s b (fun e ↦ ¬k.Consumes s e) fun e ↦ T (k.fill e))
    (hks : ∀ k' ∈ ks ++ [k], ¬k'.Drops s) (b : Bool) :
    Around s b (fun e ↦ ¬k.Consumes s e) fun e ↦ T (plug (ks ++ [k]) e) := by
  induction ks generalizing T with
  | nil => exact hT k (hks k (List.mem_singleton_self k)) b
  | cons k' ks ih =>
    obtain ⟨hk', hks⟩ := List.forall_mem_cons.mp hks
    obtain ⟨p, q, hpq⟩ := hT k' hk' false
    obtain ⟨p', q', hpq'⟩ := ih (fun k hk b ↦ k.text hk b) hks
    refine ⟨p ++ p', q' ++ q, fun e he hP ↦ ?_⟩
    obtain ⟨hstring, hident⟩ := plug_concat ks k e
    have houter := hpq _ hstring (k'.not_consumes hident)
    dsimp only at houter hpq' ⊢
    rw [List.cons_append, plug, houter, argText_of_not_string hstring, hpq' e he hP]
    simp only [String.append_assoc]

end Agex

end Zeroxos
