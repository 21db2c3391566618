import Zeroxos.Agex.ExprYields
import Zeroxos.Agex.Grouping

/-!
# Emitted expressions and their sources

The expressions that agex and Rust write alike are those of numbers, `true` and `false`, lower-case
names, operators, calls and fields. Such an expression, parsed from some source, is parsed from its
emitted text again exactly when it is grouped.
-/

namespace Zeroxos

namespace Agex

mutual

/-- An expression that agex and Rust write alike. -/
def Common : Expr → Prop
  | .int _ => True
  | .float _ => True
  | .bool _ => True
  | .ident name => startsUppercase name = false ∧ name ∉ ["range", "print", "println"]
  | .binary _ left right => Common left ∧ Common right
  | .unary op operand => (op = "&" → operand.isRef = false) ∧ Common operand
  | .call callee args => Common callee ∧ Commons args
  | .method recv name args =>
    Common recv ∧ name ∉ ["uppercase", "lowercase", "length", "len"] ∧ Commons args
  | .field recv name => Common recv ∧ name ∉ ["uppercase", "lowercase", "length", "len"]
  | _ => False

/-- `Common` of each. -/
def Commons : List Expr → Prop
  | [] => True
  | e :: l => Common e ∧ Commons l

end

theorem plainIdent_of_written {name : String}
    (h : (IsName name ∨ name = "range" ∨ name = "print") ∧ name ∉ ["true", "false", "null", "this"])
    (hlower : startsUppercase name = false) (hother : name ∉ ["range", "print", "println"]) :
    PlainIdent name := by
  have hname : IsName name := by
    rcases h.1 with hname | rfl | rfl
    · exact hname
    · exact absurd (by decide) hother
    · exact absurd (by decide) hother
  refine ⟨hname, hlower, ?_⟩
  exact fun hmem ↦ (List.mem_append.mp hmem : name ∈ ["true", "false", "null", "this"] ∨ _).elim
    h.2 hother

mutual

theorem plain_of_written : (e : Expr) → Written e → Common e → Plain e
  | .int _, h, _ => h
  | .float _, h, _ => h
  | .bool _, _, _ => trivial
  | .ident _, h, hcommon => plainIdent_of_written h hcommon.1 hcommon.2
  | .binary _ left right, h, hcommon =>
    ⟨h.1, plain_of_written left h.2.1 hcommon.1, plain_of_written right h.2.2 hcommon.2⟩
  | .unary _ operand, h, hcommon =>
    ⟨h.1.imp_right fun h ↦ h.imp_right fun hop ↦ ⟨hop, hcommon.1 hop⟩,
      plain_of_written operand h.2 hcommon.2⟩
  | .call callee args, h, hcommon =>
    ⟨plain_of_written callee h.1 hcommon.1, plains_of_written args h.2 hcommon.2⟩
  | .method recv _ args, h, hcommon =>
    ⟨plain_of_written recv h.1 hcommon.1, ⟨h.2.1, hcommon.2.1⟩,
      plains_of_written args h.2.2 hcommon.2.2⟩
  | .field recv _, h, hcommon => ⟨plain_of_written recv h.1 hcommon.1, h.2, hcommon.2⟩

theorem plains_of_written : (args : List Expr) → AllWritten args → Commons args → Plains args
  | [], _, _ => trivial
  | e :: args, h, hcommon =>
    ⟨plain_of_written e h.1 hcommon.1, plains_of_written args h.2 hcommon.2⟩

end

section

variable {src : String} {c c' : Cursor Token} {n fuel : ℕ} {e : Expr}

/-- What the parser has made is plain when agex and Rust write it alike. -/
theorem plain_of_parse (hsrc : tokenize src = some (.ok c.toks)) (hc : c.Valid IsEof)
    (hn : c.remaining < n) (he : parseExpr n c = (.ok e, c')) (hcommon : Common e) : Plain e := by
  have hwritten : Written e :=
    parseExpr_yields le_rfl c hc (fun _ _ ↦ trivial) hn (wellWritten_tokenize hsrc) e c' he
  exact plain_of_written e hwritten hcommon

/-- **Grouping.** An expression that the parser has made, wherever in a source, is parsed from its
emitted text again exactly when it is grouped. -/
theorem grouping_kept_iff (hsrc : tokenize src = some (.ok c.toks)) (hc : c.Valid IsEof)
    (hn : c.remaining < n) (he : parseExpr n c = (.ok e, c')) (hcommon : Common e)
    (hfuel : ∀ toks, tokenize (genExpr noScope e) = some (.ok toks) → toks.length ≤ fuel) :
    ReadsBack fuel e ↔ Grouped e :=
  readsBack_iff_grouped (plain_of_parse hsrc hc hn he hcommon) hfuel

end

/-! ## Sources -/

/-- What the expression that was parsed is like. -/
def exprParsedAs (check : Expr → Bool) : Outcome ParseError Expr → Bool
  | .ok e => check e
  | _ => false

/-- The source is an expression, which is as `check` says. -/
def IsSourceOf (check : Expr → Bool) (n : ℕ) (src : String) : Prop :=
  ∃ toks, tokenize src = some (.ok toks) ∧ (newParser toks).remaining < n ∧
    exprParsedAs check (parseExpr n (newParser toks)).1 = true

theorem IsSourceOf.exists_expr {check : Expr → Bool} {n : ℕ} {src : String}
    (h : IsSourceOf check n src) : ∃ toks e c', tokenize src = some (.ok toks) ∧
      (newParser toks).Valid IsEof ∧ (newParser toks).remaining < n ∧
        parseExpr n (newParser toks) = (.ok e, c') ∧ check e = true := by
  obtain ⟨toks, htoks, hrem, hcheck⟩ := h
  obtain ⟨r, hr, hspec⟩ := tokenize_spec src
  obtain rfl : r = .ok toks := Option.some.inj (hr.symm.trans htoks)
  rcases hres : parseExpr n (newParser toks) with ⟨_ | _ | _ | _, c'⟩
  · rw [hres] at hcheck
    exact ⟨toks, _, c', htoks, (hspec toks rfl).valid, hrem, hres, hcheck⟩
  all_goals
    rw [hres] at hcheck
    cases hcheck

theorem length_le_of_tokenize {src : String} {n : ℕ}
    (h : ∃ toks, tokenize src = some (.ok toks) ∧ toks.length ≤ n) {toks : List Token}
    (htoks : tokenize src = some (.ok toks)) : toks.length ≤ n := by
  obtain ⟨toks', htoks', hlen⟩ := h
  rw [htoks'] at htoks
  cases htoks
  exact hlen

/-- A method with a reference for an argument. -/
def isRefArg : Expr → Bool
  | .method (.ident "a") "f" [.unary "&" (.ident "x")] => true
  | _ => false

theorem eq_of_isRefArg {e : Expr} (h : isRefArg e = true) :
    e = .method (.ident "a") "f" [.unary "&" (.ident "x")] := by
  unfold isRefArg at h
  split at h
  · rfl
  · cases h

theorem grouping_kept_iff_refArg :
    ReadsBack 8 (.method (.ident "a") "f" [.unary "&" (.ident "x")]) := by
  have hsource : IsSourceOf isRefArg 10 "(a).f(&x)" := ⟨_, rfl, by decide, by decide +kernel⟩
  obtain ⟨toks, e, c', htoks, hvalid, hrem, he, hshape⟩ := hsource.exists_expr
  obtain rfl := eq_of_isRefArg hshape
  have hcommon : Common (.method (.ident "a") "f" [.unary "&" (.ident "x")]) :=
    ⟨⟨rfl, by decide⟩, by decide, ⟨fun _ ↦ rfl, rfl, by decide⟩, trivial⟩
  have hlen : ∃ toks, tokenize (genExpr noScope (.method (.ident "a") "f"
      [.unary "&" (.ident "x")])) = some (.ok toks) ∧ toks.length ≤ 8 := ⟨_, rfl, by decide⟩
  refine (grouping_kept_iff htoks hvalid hrem he hcommon
    fun _ ↦ length_le_of_tokenize hlen).mpr ?_
  exact ⟨rfl, trivial, ⟨trivial, trivial⟩⟩

/-- A method of a reference. -/
def isRefCall : Expr → Bool
  | .method (.unary "&" (.ident "x")) "f" [] => true
  | _ => false

theorem eq_of_isRefCall {e : Expr} (h : isRefCall e = true) :
    e = .method (.unary "&" (.ident "x")) "f" [] := by
  unfold isRefCall at h
  split at h
  · rfl
  · cases h

/-- A field that is called. -/
def isFieldCall : Expr → Bool
  | .call (.field (.ident "a") "b") [.ident "x"] => true
  | _ => false

theorem eq_of_isFieldCall {e : Expr} (h : isFieldCall e = true) :
    e = .call (.field (.ident "a") "b") [.ident "x"] := by
  unfold isFieldCall at h
  split at h
  · rfl
  · cases h

/-- The expression that the source is, is not read from its emitted text. -/
def Regroups (n : ℕ) (src text : String) : Prop :=
  ∃ toks e c', tokenize src = some (.ok toks) ∧ parseExpr n (newParser toks) = (.ok e, c') ∧
    Common e ∧ genExpr noScope e = text ∧ ∀ fuel, n ≤ fuel → ¬ReadsBack fuel e

theorem IsSourceOf.regroups {check : Expr → Bool} {n : ℕ} {src text : String} {e : Expr}
    (h : IsSourceOf check n src) (heq : ∀ {e'}, check e' = true → e' = e) (hcommon : Common e)
    (htext : genExpr noScope e = text)
    (hlen : ∃ toks, tokenize text = some (.ok toks) ∧ toks.length ≤ n) (hgrouped : ¬Grouped e) :
    Regroups n src text := by
  obtain ⟨toks, e', c', htoks, hvalid, hrem, he, hshape⟩ := h.exists_expr
  obtain rfl := heq hshape
  refine ⟨toks, e', c', htoks, he, hcommon, htext, fun fuel hfuel hback ↦ hgrouped ?_⟩
  rw [← htext] at hlen
  have hplain := plain_of_parse htoks hvalid hrem he hcommon
  exact (readsBack_iff_grouped hplain fun _ h ↦ (length_le_of_tokenize hlen h).trans hfuel).mp hback

/-- `&x.f()` is a reference to `x.f()`, and `a.b(x)` is a method. -/
theorem grouping_lost : Regroups 9 "(&x).f()" "&x.f()" ∧ Regroups 9 "(a.b)(x)" "a.b(x)" := by
  have hrefCall : IsSourceOf isRefCall 9 "(&x).f()" := ⟨_, rfl, by decide, by decide +kernel⟩
  have hfieldCall : IsSourceOf isFieldCall 9 "(a.b)(x)" := ⟨_, rfl, by decide, by decide +kernel⟩
  constructor
  · refine hrefCall.regroups eq_of_isRefCall ?_ (by decide) ⟨_, rfl, by decide⟩ fun h ↦ nomatch h.1
    exact ⟨⟨fun _ ↦ rfl, rfl, by decide⟩, by decide, trivial⟩
  · refine hfieldCall.regroups eq_of_isFieldCall ?_ (by decide) ⟨_, rfl, by decide⟩
      fun h ↦ nomatch h.1.2
    exact ⟨⟨⟨rfl, by decide⟩, by decide⟩, ⟨rfl, by decide⟩, trivial⟩

end Agex

end Zeroxos
