import Zeroxos.Agex.DeclOrder
import Zeroxos.Agex.ParserYields

/-!
# The names in a parsed program

The name of a parameter is the value of an identifier token, which is made of the characters of
identifiers. A sealed class of a parsed program has therefore no field with a colon in its
name, and the order of its declarations does not matter exactly when it is safe.
-/

namespace Zeroxos

namespace Agex

open Parse

/-- A name that can be told from what follows it. -/
def PlainName (name : String) : Prop := ':' ∉ name.toList

theorem plainName_of_isName {name : String} (h : IsName name) : PlainName name :=
  h.notMem (by decide)

variable {α : Type} {n fuel : ℕ} {p : P α}

/-! ## Parameters -/

/-- Parameters with plain names. -/
def PlainParams (params : List Param) : Prop := ∀ p ∈ params, PlainName p.name

theorem paramRound_yields (hn : n ≤ fuel) {params : List Param} (h : PlainParams params) :
    Yields n (paramRound fuel params) fun r ↦ PlainParams r.state := by
  have hmutable : Takes n (ifAt .varKw (do
      let _ ← eat .varKw
      return true) (return false)) 0 := by
    refine ifAt_takes ?_ (Consumes.pure _)
    exact (eat_takes (by decide)).bind_pure.mono le_rfl (Nat.zero_le 1)
  refine ifAt_yields (.pure h) (.after hmutable fun mutable ↦ ?_)
  refine .bind (eat_takes (by decide)) eat_yields fun name hname ↦ ?_
  have hplain := plainName_of_isName (hname.1.name hname.2)
  refine .after (eat_takes (by decide)) fun _ ↦ .after (parseType_takes (by omega)) fun ty ↦ ?_
  refine .after (ifAssign_takes (by omega)) fun default ↦ ?_
  have hparams : PlainParams (params ++ [⟨name.value, ty, mutable, default⟩]) :=
    List.forall_mem_append.mpr ⟨h, List.forall_mem_singleton.mpr hplain⟩
  exact ifMaybe_yields (by decide) (.pure hparams) (.pure hparams)

theorem parseParams_yields (hn : n ≤ fuel) : Yields n (parseParams fuel) PlainParams :=
  .loop (paramRound_safe hn) (fun _ h ↦ paramRound_yields hn h) fuel fun _ h ↦ nomatch h

/-! ## Classes -/

/-- The parameters of a class. -/
def ClassDecl.params : ClassDecl → List Param
  | .mk _ _ _ params _ _ _ => params

/-- A class whose subclasses have fields with plain names. -/
def PlainClass : ClassDecl → Prop
  | .mk _ _ _ params _ _ subclasses => PlainParams params ∧ ∀ c ∈ subclasses, PlainParams c.params

theorem PlainClass.params {c : ClassDecl} (h : PlainClass c) : PlainParams c.params := by
  cases c
  exact h.1

theorem parseClass_yields (hn : n ≤ fuel) {depth : ℕ} (hdepth : n ≤ depth)
    (isData isSealed : Bool) : Yields n (parseClass fuel depth isData isSealed) PlainClass := by
  induction depth generalizing n isData isSealed with
  | zero =>
    obtain rfl := Nat.le_zero.mp hdepth
    exact Finds.zero
  | succ depth ih =>
    refine .after (eat_takes (by decide)) fun name ↦ ?_
    have hparams : Yields (n - 1) (ifMaybe .lParen (do
        let params ← parseParams fuel
        let _ ← eat .rParen
        return params) (return [])) PlainParams := by
      refine ifMaybe_yields (by decide) ?_ (.pure fun _ h ↦ nomatch h)
      exact .bind (parseParams_takes (by omega)) (parseParams_yields (by omega))
        fun params h ↦ .before h
    refine .bind (classParams_takes (by omega)) hparams fun params hparams ↦ ?_
    refine .after (classBases_takes (by omega)) fun bases ↦ ?_
    -- members leave the class without subclasses
    have hmembers : Yields (n - 1 - 0 - 0) (ifMaybe .lBrace (do
        let members ← whileNotAt .rBrace (parseMember fuel) fuel
        let _ ← eat .rBrace
        return (members, ([] : List ClassDecl))) (return ([], [])))
        fun body ↦ ∀ c ∈ body.2, PlainParams c.params := by
      refine ifMaybe_yields (by decide) ?_ (.pure fun _ h ↦ nomatch h)
      exact .after (whileNotAt_takes (parseMember_takes (by omega)) (by omega)) fun members ↦
        .before fun _ h ↦ nomatch h
    refine .bind_pure (Finds.imp ?_ fun body (hbody : ∀ c ∈ body.2, PlainParams c.params) ↦
      ⟨hparams, hbody⟩)
    split_ifs with hsealed
    · refine ifAtThen_yields ?_ hmembers
      have hclass : Takes (n - 1 - 0 - 0 - 1 - 1) (parseClass fuel depth false false) 0 :=
        (parseClass_takes (by omega) (by omega) false false).mono le_rfl (Nat.zero_le 1)
      have hitem : Takes (n - 1 - 0 - 0 - 1) (do
          let _ ← eat .classKw
          parseClass fuel depth false false) 1 := .bind (eat_takes (by decide)) fun _ ↦ hclass
      refine .after (eat_takes (by decide)) fun _ ↦ ?_
      have hyields : Yields (n - 1 - 0 - 0 - 1) (do
          let _ ← eat .classKw
          parseClass fuel depth false false) PlainClass :=
        .after (eat_takes (by decide)) fun _ ↦ ih (by omega) (by omega) false false
      exact .bind (whileNotAt_takes hitem (by omega)) (whileNotAt_yields hitem hyields)
        fun subclasses h ↦ .before fun c hc ↦ (h c hc).params
    · exact hmembers

/-! ## Declarations -/

theorem plainFields_registered {c : ClassDecl} (h : PlainClass c) :
    PlainFields (registered (.classDecl c)) := by
  obtain ⟨name, isData, isSealed, params, bases, members, subclasses⟩ := c
  rw [registered]
  split_ifs
  · intro c hc v hv f hf
    rw [List.mem_singleton] at hc
    subst hc
    obtain ⟨sub, hsub, rfl⟩ := List.mem_map.mp hv
    cases sub
    obtain ⟨p, hp, rfl⟩ := List.mem_map.mp hf
    exact h.2 _ hsub p hp
  · exact plainFields_nil

theorem other_yields {mk : α → Decl} (h : ∀ a, registered (mk a) = []) :
    Yields n (p >>= fun a ↦ pure (mk a)) fun d ↦ PlainFields (registered d) := by
  refine .bind_pure (Finds.trivial.imp fun a _ ↦ ?_)
  rw [h]
  exact plainFields_nil

theorem parseDecl_yields (hn : n ≤ fuel) :
    Yields n (parseDecl fuel) fun d ↦ PlainFields (registered d) := by
  have hclass : ∀ {l} (isData isSealed : Bool), l ≤ n →
      Yields l (eat .classKw >>= fun _ ↦ do
        return Decl.classDecl (← parseClass fuel fuel isData isSealed))
        fun d ↦ PlainFields (registered d) := by
    intro l isData isSealed hl
    refine .after (eat_takes (by decide)) fun _ ↦ .bind_pure ?_
    exact (parseClass_yields (by omega) (by omega) isData isSealed).imp
      fun c ↦ plainFields_registered
  refine ifAt_yields (other_yields fun _ ↦ rfl) (ifAt_yields (other_yields fun _ ↦ rfl) ?_)
  refine ifAt_yields (other_yields fun _ ↦ rfl) (ifAt_yields (other_yields fun _ ↦ rfl) ?_)
  refine ifAtThen_yields (.after (eat_takes (by decide)) fun _ ↦ other_yields fun _ ↦ rfl) ?_
  refine ifAt_yields (other_yields fun _ ↦ rfl) ?_
  refine ifAt_yields (.after (eat_takes (by decide)) fun _ ↦ hclass true false (by omega)) ?_
  refine ifAt_yields (.after (eat_takes (by decide)) fun _ ↦ hclass false true (by omega)) ?_
  refine ifAt_yields (hclass false false le_rfl) (ifAt_yields (other_yields fun _ ↦ rfl) ?_)
  refine ifAt_yields (other_yields fun _ ↦ rfl) (ifAt_yields (other_yields fun _ ↦ rfl) ?_)
  exact other_yields fun _ ↦ rfl

/-! ## Programs -/

/-- **The fields of sealed classes have plain names** in every program that parses. -/
theorem plainFields_of_parse {src : String} {toks : List Token}
    (htoks : tokenize src = some (.ok toks)) {fuel : ℕ} (hfuel : toks.length ≤ fuel)
    {prog : Program} (hprog : parse fuel src = .ok prog) :
    PlainFields (sealedOf prog.numbered) := by
  have hdecls := forall_decls_of_parse (parseDecl_yields hfuel) htoks hfuel hprog
  intro c hc
  obtain ⟨p, hp, hcp⟩ := List.mem_flatMap.mp hc
  exact hdecls p.1 (List.fst_mem_of_mem_zipIdx hp) c hcp

/-! ## The order of declarations -/

/-- **Declaration order.** However the declarations of a program that parses are reordered, the
output is the header, the items in their new order, and `main`; and the items keep their texts
exactly when the program is safe. -/
theorem decl_order_iff {src : String} {toks : List Token}
    (htoks : tokenize src = some (.ok toks)) {fuel : ℕ} (hfuel : toks.length ≤ fuel)
    {prog : Program} (hprog : parse fuel src = .ok prog) :
    (∀ l, Reorders prog l → generate ⟨l.map Prod.fst⟩ = some ⟨written genHeader []
      ++ String.join ((itemTexts [] l).map Prod.snd) ++ mainText l, []⟩)
      ∧ (OrderFree prog ↔ OrderSafe prog) := by
  have hplain := plainFields_of_parse htoks hfuel hprog
  refine ⟨fun l hl ↦ generate_eq ?_, orderFree_iff hplain⟩
  exact hplain.mono fun c hc ↦ (mem_sealedOf_of_perm hl.perm).mp hc

/-- What the program that was parsed is like. -/
def parsedAs (check : Program → Bool) : Outcome ParseError Program → Bool
  | .ok prog => check prog
  | _ => false

theorem exists_of_parsedAs {check : Program → Bool} {o : Outcome ParseError Program}
    (h : parsedAs check o = true) : ∃ prog, o = .ok prog ∧ check prog = true := by
  cases o with
  | ok prog => exact ⟨prog, rfl, h⟩
  | _ => cases h

/-- A variant that is made at the top level. -/
def madeInMain : String := "sealed class D \x7b class P(a: int) \x7d D.P(1)"

/-- There is one sealed class, and no declaration has a call on a name. -/
def callsInMain (prog : Program) : Bool :=
  (sealedOf prog.numbered).length = 1 && prog.numbered.all fun p ↦ (declCalls [] p.1).isEmpty

theorem decl_order_iff_madeInMain : ∃ prog, parse 19 madeInMain = .ok prog ∧ OrderFree prog := by
  have hcheck : parsedAs callsInMain (parse 19 madeInMain) = true := by decide +kernel
  obtain ⟨prog, hprog, hcalls⟩ := exists_of_parsedAs hcheck
  rw [callsInMain, Bool.and_eq_true, decide_eq_true_eq, List.all_eq_true] at hcalls
  obtain ⟨c, hc⟩ := List.length_eq_one_iff.mp hcalls.1
  have htoks : ∃ toks, tokenize madeInMain = some (.ok toks) ∧ toks.length ≤ 19 :=
    ⟨_, rfl, by decide⟩
  obtain ⟨toks, htoks, hfuel⟩ := htoks
  refine ⟨prog, hprog, (decl_order_iff htoks hfuel hprog).2.mpr ⟨fun p hp _ call hcall ↦ ?_, ?_⟩⟩
  · rw [List.isEmpty_iff.mp (hcalls.2 p hp)] at hcall
    cases hcall
  · -- two classes with the variant are the same one
    intro call _ c₁ hc₁ c₂ hc₂ f f' hf hf' i _
    rw [hc, List.mem_singleton] at hc₁ hc₂
    subst hc₁ hc₂
    rw [Option.some.inj (hf.symm.trans hf')]

/-- A variant that is made before its class. -/
def sealedLast : String := "fn f() => D.P(1) sealed class D \x7b class P(a: int) \x7d"

/-- A declaration names a variant of a sealed class. -/
def makesVariant (prog : Program) : Bool :=
  prog.numbered.any fun p ↦ p.1.stmt?.isNone && (declCalls [] p.1).any fun call ↦
    (sealedOf prog.numbered).any fun c ↦ (c.fields? call.enumName call.variant).isSome

/-- `f` returns `D.P(1)` here, and `D::P { a: 1 }` when the class comes first. -/
theorem decl_order_sealedLast : ∃ prog, parse 24 sealedLast = .ok prog ∧ ¬OrderFree prog := by
  have hcheck : parsedAs makesVariant (parse 24 sealedLast) = true := by decide +kernel
  obtain ⟨prog, hprog, hmakes⟩ := exists_of_parsedAs hcheck
  have htoks : ∃ toks, tokenize sealedLast = some (.ok toks) ∧ toks.length ≤ 24 :=
    ⟨_, rfl, by decide⟩
  obtain ⟨toks, htoks, hfuel⟩ := htoks
  refine ⟨prog, hprog, fun hfree ↦ ?_⟩
  have hsafe := (orderFree_iff (plainFields_of_parse htoks hfuel hprog)).mp hfree
  obtain ⟨p, hp, hpcall⟩ := List.any_eq_true.mp hmakes
  rw [Bool.and_eq_true, Option.isNone_iff_eq_none] at hpcall
  obtain ⟨call, hcall, hclass⟩ := List.any_eq_true.mp hpcall.2
  obtain ⟨c, hc, hsome⟩ := List.any_eq_true.mp hclass
  rw [hsafe.decls p hp hpcall.1 call hcall c hc] at hsome
  cases hsome

end Agex

end Zeroxos
