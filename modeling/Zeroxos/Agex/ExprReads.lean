import Zeroxos.Agex.ExprLadder

/-!
# Parsing an emitted expression

The parser of agex reads the tokens of a grouped expression as that expression. An operand is read
at the level of unary operators, and a binary operator is in parentheses with its operands. A chain
of calls and fields is read by the loop for postfix forms, and the proof follows the loop from the
innermost receiver outwards.
-/

namespace Zeroxos

namespace Agex

open Parse

variable {k : Kind} {l l' : List Kind} {ty : TokenType} {value : String}

/-! ## Grouping -/

mutual

/-- No reference stands directly in front of a postfix form, and no field is called. -/
def Grouped : Expr → Prop
  | .binary _ left right => Grouped left ∧ Grouped right
  | .unary _ operand => Grouped operand
  | .call callee args =>
    (callee.isRef = false ∧ callee.isField = false) ∧ Grouped callee ∧ Groupeds args
  | .method recv _ args => recv.isRef = false ∧ Grouped recv ∧ Groupeds args
  | .field recv _ => recv.isRef = false ∧ Grouped recv
  | _ => True

/-- `Grouped` of each. -/
def Groupeds : List Expr → Prop
  | [] => True
  | e :: l => Grouped e ∧ Groupeds l

end

theorem Plain.isRef_operand {op : String} {operand : Expr} (h : Plain (.unary op operand))
    (hop : op = "&") : operand.isRef = false := by
  rcases h.1 with hne | hne | href
  · exact absurd (hop.symm.trans hne) (by decide)
  · exact absurd (hop.symm.trans hne) (by decide)
  · exact href.2

/-- In a grouped expression the ampersands are those of a reference. -/
theorem amps_of_grouped : {e : Expr} → Plain e → Grouped e → amps e = if e.isRef then 1 else 0
  | .unary op operand, hplain, h => by
    by_cases hop : op = "&"
    · rw [amps, if_pos hop, amps_of_grouped hplain.2 h, hplain.isRef_operand hop, Expr.isRef,
        decide_eq_true hop]
      rfl
    · rw [amps, if_neg hop, Expr.isRef, decide_eq_false hop]
      rfl
  | .call callee _, hplain, h => by
    rw [amps, amps_of_grouped hplain.1 h.2.1, h.1.1]
    rfl
  | .method recv _ _, hplain, h => by
    rw [amps, amps_of_grouped hplain.1 h.2.1, h.1]
    rfl
  | .field recv _, hplain, h => by
    rw [amps, amps_of_grouped hplain.1 h.2, h.1]
    rfl
  | .int _, _, _ => rfl
  | .float _, _, _ => rfl
  | .bool _, _, _ => rfl
  | .ident _, _, _ => rfl
  | .binary _ _ _, _, _ => rfl

/-- The tokens that begin the text of an expression behind its ampersands. -/
def Opens (ty : TokenType) : Prop :=
  ty = .intLiteral ∨ ty = .floatLiteral ∨ ty = .ident ∨ ty = .lParen

theorem bodyKinds_cons : {e : Expr} → Plain e → ∃ k l, bodyKinds e = k :: l ∧ Opens k.1
  | .unary op operand, hplain => by
    rw [bodyKinds]
    split_ifs
    · exact bodyKinds_cons hplain.2
    · exact ⟨_, _, rfl, .inr (.inr (.inr rfl))⟩
  | .call callee _, hplain => by
    obtain ⟨k, l, h, hopens⟩ := bodyKinds_cons hplain.1
    exact ⟨k, _, by rw [bodyKinds, h]; rfl, hopens⟩
  | .method recv _ _, hplain => by
    obtain ⟨k, l, h, hopens⟩ := bodyKinds_cons hplain.1
    exact ⟨k, _, by rw [bodyKinds, h]; rfl, hopens⟩
  | .field recv _, hplain => by
    obtain ⟨k, l, h, hopens⟩ := bodyKinds_cons hplain.1
    exact ⟨k, _, by rw [bodyKinds, h]; rfl, hopens⟩
  | .int _, _ => ⟨_, _, rfl, .inl rfl⟩
  | .float _, _ => ⟨_, _, rfl, .inr (.inl rfl)⟩
  | .bool _, _ => ⟨_, _, rfl, .inr (.inr (.inl rfl))⟩
  | .ident _, _ => ⟨_, _, rfl, .inr (.inr (.inl rfl))⟩
  | .binary _ _ _, _ => ⟨_, _, rfl, .inr (.inr (.inr rfl))⟩

theorem kinds_cons {e : Expr} (hplain : Plain e) : ∃ k l, kinds e = k :: l ∧ k.1 ≠ .rParen := by
  obtain ⟨k, l, h, hopens⟩ := bodyKinds_cons hplain
  rw [kinds, h]
  rcases amps e with _ | _ | n
  · refine ⟨k, l, rfl, fun hk ↦ ?_⟩
    rw [Opens, hk] at hopens
    exact absurd hopens (by decide)
  · exact ⟨_, _, rfl, by decide⟩
  · exact ⟨_, _, rfl, by decide⟩

/-! ## Primary expressions -/

section Postfix

variable {pe : P Expr} {fuel m : ℕ} {e : Expr} {name : String} {args : List Expr}

theorem primary_int : Parses (parsePrimary pe fuel) ((.intLiteral, value) :: l) (.int value) l :=
  Reads.current_bind fun ⟨_, _, _, _⟩ ht ↦ by
    cases ht
    dsimp only
    exact eat_then (Reads.pure _ l)

theorem primary_float :
    Parses (parsePrimary pe fuel) ((.floatLiteral, value) :: l) (.float value) l :=
  Reads.current_bind fun ⟨_, _, _, _⟩ ht ↦ by
    cases ht
    dsimp only
    exact eat_then (Reads.pure _ l)

theorem primary_paren (h : Parses pe l e ((.rParen, value) :: l')) {open_ : String} :
    Parses (parsePrimary pe fuel) ((.lParen, open_) :: l) e l' :=
  Reads.current_bind fun ⟨_, _, _, _⟩ ht ↦ by
    cases ht
    dsimp only
    exact eat_then (h.bind (eat_then (Reads.pure _ l')))

theorem primary_name (h : Parses (parseNamed pe fuel false name) l e l') :
    Parses (parsePrimary pe fuel) ((.ident, name) :: l) e l' :=
  Reads.current_bind fun ⟨_, _, _, _⟩ ht ↦ by
    cases ht
    dsimp only
    refine isAt_bind_eq ?_
    exact eatCur_bind fun _ _ ↦ h

theorem primary_bool (b : Bool) :
    Parses (parsePrimary pe fuel) ((.ident, if b then "true" else "false") :: l) (.bool b) l := by
  refine primary_name ?_
  cases b
  · exact Reads.pure _ l
  · exact Reads.pure _ l

theorem primary_ident (h : PlainIdent name) :
    Parses (parsePrimary pe fuel) ((.ident, name) :: k :: l) (.ident name) (k :: l) := by
  refine primary_name ?_
  have hother := h.other
  simp only [List.mem_cons, List.not_mem_nil, or_false, not_or] at hother
  rw [parseNamed, if_neg (by tauto), if_neg (by tauto), if_neg (by tauto)]
  refine isAt_bind_eq ?_
  rw [h.lower, Bool.and_false]
  exact Reads.pure _ _

/-! ## Postfix forms -/

/-- What may follow an argument. -/
def EndsArg (k : Kind) : Prop := k.1 = .comma ∨ k.1 = .rParen

theorem moreKinds_cons (args : List Expr) (l : List Kind) :
    ∃ k l', moreKinds args ++ (.rParen, ")") :: l = k :: l' ∧ EndsArg k := by
  cases args with
  | nil => exact ⟨_, _, rfl, .inr rfl⟩
  | cons e args => exact ⟨_, _, rfl, .inl rfl⟩

/-- The parser of arguments reads each of them. -/
def ReadsArgs (pe : P Expr) (args : List Expr) : Prop :=
  ∀ e ∈ args, ∀ k l, EndsArg k → Parses pe (kinds e ++ k :: l) e (k :: l)

theorem arg_parses (hargs : ReadsArgs pe (e :: args)) (l : List Kind) :
    Parses pe (kinds e ++ (moreKinds args ++ (.rParen, ")") :: l)) e
      (moreKinds args ++ (.rParen, ")") :: l) := by
  obtain ⟨k, l', hl, hk⟩ := moreKinds_cons args l
  rw [hl]
  exact hargs e List.mem_cons_self k l' hk

theorem moreItems_parses (hargs : ReadsArgs pe args) (hfuel : args.length < fuel)
    (out : List Expr) : Parses (moreItems pe fuel out) (moreKinds args ++ (.rParen, ")") :: l)
      (out ++ args) ((.rParen, ")") :: l) := by
  induction args generalizing fuel out with
  | nil =>
    obtain ⟨fuel, rfl⟩ := Nat.exists_eq_add_of_lt hfuel
    rw [List.append_nil]
    exact Reads.while_exit (maybe_false (by decide))
  | cons e args ih =>
    obtain ⟨fuel, rfl⟩ : ∃ n, fuel = n + 1 := ⟨fuel - 1, by omega⟩
    have hrest := ih (fun e' he' ↦ hargs e' (List.mem_cons_of_mem e he'))
      (Nat.lt_of_succ_lt_succ hfuel) (out ++ [e])
    rw [List.append_assoc] at hrest
    have hkinds : moreKinds (e :: args) ++ (.rParen, ")") :: l
        = (.comma, ",") :: (kinds e ++ (moreKinds args ++ (.rParen, ")") :: l)) := by
      rw [moreKinds, List.append_assoc]
      rfl
    rw [hkinds]
    exact Reads.while_again maybe_true (arg_parses hargs l).bind_pure hrest

theorem parseArgs_parses (hplain : ∀ e ∈ args, Plain e) (hargs : ReadsArgs pe args)
    (hfuel : args.length ≤ fuel) : Parses (parseArgs pe fuel)
      ((.lParen, "(") :: (argKinds args ++ (.rParen, ")") :: l)) args l := by
  suffices hitems : Parses (items .rParen pe fuel) (argKinds args ++ (.rParen, ")") :: l) args
      ((.rParen, ")") :: l) from eat_then (hitems.bind (eat_then (Reads.pure _ l)))
  cases args with
  | nil => exact ifAt_true (Reads.pure _ _)
  | cons e args =>
    have hrest := moreItems_parses (l := l)
      (fun e' he' ↦ hargs e' (List.mem_cons_of_mem e he')) hfuel [e]
    have hkinds : argKinds (e :: args) ++ (.rParen, ")") :: l
        = kinds e ++ (moreKinds args ++ (.rParen, ")") :: l) := by
      rw [argKinds, List.append_assoc]
      rfl
    obtain ⟨k, l', hk, hne⟩ := kinds_cons (hplain e List.mem_cons_self)
    have hitem := arg_parses hargs l
    rw [hkinds]
    rw [hk] at hitem ⊢
    exact ifAt_false hne (hitem.bind hrest)

theorem round_call (h : Parses (parseArgs pe fuel) ((.lParen, "(") :: l) args l') :
    Parses (postfixRound pe fuel e) ((.lParen, "(") :: l) (.again (.call e args)) l' :=
  ifAt_false (by decide) (ifAtThen_false (by decide) (ifAt_true h.bind_pure))

theorem round_method (h : Parses (parseArgs pe fuel) ((.lParen, "(") :: l) args l') :
    Parses (postfixRound pe fuel e) ((.dot, ".") :: (.ident, name) :: (.lParen, "(") :: l)
      (.again (.method e name args)) l' := by
  refine ifAt_true (eat_then (eat_bind fun t ht ↦ ?_))
  obtain rfl : t.value = name := congrArg Prod.snd ht
  exact ifAt_true h.bind_pure

theorem round_field (hk : k.1 ≠ .lParen) :
    Parses (postfixRound pe fuel e) ((.dot, ".") :: (.ident, name) :: k :: l)
      (.again (.field e name)) (k :: l) := by
  refine ifAt_true (eat_then (eat_bind fun t ht ↦ ?_))
  obtain rfl : t.value = name := congrArg Prod.snd ht
  exact ifAt_false hk (Reads.pure _ _)

/-- What ends a chain of postfix forms. -/
def EndsPostfix (k : Kind) : Prop := k.1 ≠ .dot ∧ k.1 ≠ .lParen ∧ k.1 ≠ .question

theorem round_exit (hk : EndsPostfix k) :
    Parses (postfixRound pe fuel e) (k :: l) (.exit e) (k :: l) :=
  ifAt_false hk.1 (ifAtThen_false hk.2.2 (ifAt_false hk.2.1 (Reads.pure _ _)))

/-- The rounds that the loop for postfix forms goes for an expression. -/
def rounds : Expr → ℕ
  | .call callee _ => rounds callee + 1
  | .method recv _ _ => rounds recv + 1
  | .field recv _ => rounds recv + 1
  | _ => 0

theorem rounds_lt : {e : Expr} → Plain e → e.isRef = false → Grouped e →
    rounds e < (bodyKinds e).length
  | .call callee args, hplain, _, h => by
    have hcallee := rounds_lt hplain.1 h.1.1 h.2.1
    rw [rounds, bodyKinds, List.length_append, List.length_append, List.length_cons]
    omega
  | .method recv _ args, hplain, _, h => by
    have hrecv := rounds_lt hplain.1 h.1 h.2.1
    rw [rounds, bodyKinds, List.length_append, List.length_append, List.length_cons]
    omega
  | .field recv _, hplain, _, h => by
    have hrecv := rounds_lt hplain.1 h.1 h.2
    rw [rounds, bodyKinds, List.length_append, List.length_cons]
    omega
  | .int _, _, _, _ => Nat.one_pos
  | .float _, _, _, _ => Nat.one_pos
  | .bool _, _, _, _ => Nat.one_pos
  | .ident _, _, _, _ => Nat.one_pos
  | .binary _ _ _, _, _, _ => Nat.succ_pos _
  | .unary op _, _, href, _ => by
    have hop : op ≠ "&" := of_decide_eq_false href
    rw [bodyKinds, if_neg hop]
    exact Nat.succ_pos _

end Postfix

/-! ## Expressions -/

section Contracts

variable (e : Expr)

/-- The loop for postfix forms comes to the expression, and goes on. -/
def ReadsPostfix : Prop :=
  ∀ fuel, (bodyKinds e).length ≤ fuel + 1 → ∀ m k l r l',
    (e.isField = true → k.1 ≠ .lParen) →
    Parses (loop (postfixRound (parseExpr fuel) (fuel + 1)) m e) (k :: l) r l' →
    Parses (parsePrimary (parseExpr fuel) (fuel + 1) >>=
      loop (postfixRound (parseExpr fuel) (fuel + 1)) (m + rounds e))
      (bodyKinds e ++ k :: l) r l'

/-- The expression is read as an operand. -/
def ReadsUnary : Prop :=
  ∀ fuel depth, (kinds e).length ≤ fuel + 1 → amps e < depth → ∀ k l, EndsPostfix k →
    Parses (parseUnary (parseExpr fuel) (fuel + 1) depth) (kinds e ++ k :: l) e (k :: l)

end Contracts

section Contract

variable {e : Expr}

theorem kinds_eq_bodyKinds (h : amps e = 0) : kinds e = bodyKinds e := by
  rw [kinds, h]
  rfl

theorem readsUnary_of_readsPostfix (hplain : Plain e) (hgrouped : Grouped e)
    (href : e.isRef = false) (h : ReadsPostfix e) : ReadsUnary e := by
  intro fuel depth hlen hdepth k l hk
  have hamps : amps e = 0 := by
    rw [amps_of_grouped hplain hgrouped, href]
    rfl
  rw [kinds_eq_bodyKinds hamps] at hlen ⊢
  obtain ⟨depth, rfl⟩ := Nat.exists_eq_add_of_lt hdepth
  obtain ⟨k₀, l₀, hhead, hopens⟩ := bodyKinds_cons hplain
  -- the loop has rounds left to see that the chain has ended
  have hrounds := rounds_lt hplain href hgrouped
  obtain ⟨m, hm⟩ : ∃ m, fuel + 1 = m + 1 + rounds e := ⟨fuel - rounds e, by omega⟩
  have hpostfix : Parses (parsePostfix (parseExpr fuel) (fuel + 1)) (bodyKinds e ++ k :: l) e
      (k :: l) := by
    have hloop := h fuel hlen (m + 1) k l e (k :: l) (fun _ ↦ hk.2.1)
      (Reads.loop_exit (round_exit hk))
    rw [← hm] at hloop
    exact hloop
  rw [hhead] at hpostfix ⊢
  refine Reads.current_bind fun t ht ↦ ?_
  have hty : t.ty = k₀.1 := congrArg Prod.fst ht
  have hne : k₀.1 ≠ .not ∧ k₀.1 ≠ .minus ∧ k₀.1 ≠ .amp := by
    rcases hopens with h | h | h | h <;> rw [h] <;> decide
  rw [hty, if_neg (not_or.mpr ⟨hne.1, hne.2.1⟩)]
  exact ifAt_false hne.2.2 hpostfix

theorem readsUnary_ref {op : String} (hop : op = "&") (hplain : Plain e) (hgrouped : Grouped e)
    (href : e.isRef = false) (h : ReadsUnary e) : ReadsUnary (.unary op e) := by
  intro fuel depth hlen hdepth k l hk
  have hamps : amps e = 0 := by
    rw [amps_of_grouped hplain hgrouped, href]
    rfl
  have hkinds : kinds (.unary op e) = (.amp, "&") :: kinds e := by
    rw [kinds, amps, if_pos hop, hamps, bodyKinds, if_pos hop, kinds_eq_bodyKinds hamps]
    rfl
  rw [amps, if_pos hop] at hdepth
  obtain ⟨depth, rfl⟩ : ∃ n, depth = n + 1 := ⟨depth - 1, by omega⟩
  rw [hkinds, List.length_cons] at hlen
  rw [hkinds, hop, List.cons_append]
  refine Reads.current_bind fun t ht ↦ ?_
  have hty : t.ty = .amp := congrArg Prod.fst ht
  rw [hty, if_neg (by decide)]
  exact ifAt_true (eat_then (h fuel depth (by omega) (by omega) k l hk).bind_pure)

theorem amps_lt_length (hplain : Plain e) (hgrouped : Grouped e) : amps e < (kinds e).length := by
  obtain ⟨k, l, h, -⟩ := bodyKinds_cons hplain
  rw [kinds, h, amps_of_grouped hplain hgrouped]
  split_ifs
  · exact Nat.succ_lt_succ (Nat.succ_pos _)
  · exact Nat.succ_pos _

theorem unary_parses {op : String} (hop : op = "!" ∨ op = "-") (hplain : Plain e)
    (hgrouped : Grouped e) (h : ReadsUnary e) {fuel : ℕ} (hlen : (kinds e).length < fuel)
    (hk : EndsPostfix k) : Parses (ladder (parseExpr fuel) (fuel + 1) 0)
      (unaryKind op :: (kinds e ++ k :: l)) (.unary op e) (k :: l) := by
  have hamps := amps_lt_length hplain hgrouped
  have hoperand := h fuel fuel (by omega) (by omega) k l hk
  refine Reads.current_bind fun t ht ↦ ?_
  have hty : t.ty = .not ∨ t.ty = .minus := by
    have hkind : t.ty = (unaryKind op).1 := congrArg Prod.fst ht
    rcases hop with rfl | rfl
    · exact .inl hkind
    · exact .inr hkind
  dsimp only
  rw [if_pos hty]
  refine eatCur_bind fun t ht ↦ ?_
  obtain rfl : t.value = op := congrArg Prod.snd ht
  exact hoperand.bind_pure

theorem EndsArg.endsPostfix (hk : EndsArg k) : EndsPostfix k := by
  rcases hk with h | h <;> rw [EndsPostfix, h] <;> decide

theorem EndsArg.opLevel (hk : EndsArg k) : opLevel k.1 = 0 := by
  rcases hk with h | h <;> rw [h] <;> rfl

theorem expr_of_ladder {fuel : ℕ}
    (h : Parses (ladder (parseExpr fuel) (fuel + 1) 0) l e (k :: l')) (hk : opLevel k.1 = 0) :
    Parses (parseExpr (fuel + 1)) l e (k :: l') :=
  ladder_up (Nat.zero_le 8) le_rfl h fun _ hm _ ↦ hk ▸ hm.ne

/-- **Expressions.** -/
theorem expr_of_unary (hplain : Plain e) (hgrouped : Grouped e) (h : ReadsUnary e) {fuel : ℕ}
    (hlen : (kinds e).length ≤ fuel) (hk : EndsPostfix k) (hlevel : opLevel k.1 = 0) :
    Parses (parseExpr fuel) (kinds e ++ k :: l) e (k :: l) := by
  have hamps := amps_lt_length hplain hgrouped
  obtain ⟨fuel, rfl⟩ : ∃ n, fuel = n + 1 := ⟨fuel - 1, by omega⟩
  exact expr_of_ladder (h fuel (fuel + 1) hlen (by omega) k l hk) hlevel

end Contract

section

variable {e left right : Expr} {op name : String} {args : List Expr}

theorem endsPostfix_of_binaryTy (h : binaryTy op = some ty) : EndsPostfix (ty, op) := by
  obtain ⟨i, hi, -, hlevel, -⟩ := exists_level h
  refine ⟨?_, ?_, ?_⟩ <;> rintro rfl <;> cases hlevel
  omega

theorem readsPostfix_binary (hop : (binaryTy op).isSome)
    (hleft : ReadsUnary left) (hright : ReadsUnary right) (hlamps : amps left < (kinds left).length)
    (hramps : amps right < (kinds right).length) : ReadsPostfix (.binary op left right) := by
  obtain ⟨ty, hty⟩ := Option.isSome_iff_exists.mp hop
  have hkind : binaryKind op = (ty, op) := by
    rw [binaryKind, hty]
    rfl
  intro fuel hlen m k l r l' _ hloop
  have hkinds : ∀ l, bodyKinds (.binary op left right) ++ l = (.lParen, "(") ::
      (kinds left ++ (ty, op) :: (kinds right ++ (.rParen, ")") :: l)) := by
    intro l
    rw [bodyKinds, hkind]
    simp only [kinds, List.append_assoc, List.cons_append, List.nil_append]
  have hlength := congrArg List.length (hkinds [])
  simp only [List.append_nil, List.length_append, List.length_cons, List.length_nil] at hlength
  obtain ⟨fuel, rfl⟩ : ∃ n, fuel = n + 2 := ⟨fuel - 2, by omega⟩
  have hends : EndsArg ((.rParen, ")") : Kind) := .inr rfl
  have hbinary := ladder_binary hty
    (hleft (fuel + 1) (fuel + 2) (by omega) (by omega) _ _ (endsPostfix_of_binaryTy hty))
    (hright (fuel + 1) (fuel + 2) (by omega) (by omega) _ (k :: l) hends.endsPostfix)
    hends.opLevel
  rw [hkinds]
  exact (primary_paren hbinary).bind hloop

theorem readsPostfix_unary (hop : op = "!" ∨ op = "-") (hplain : Plain e) (hgrouped : Grouped e)
    (h : ReadsUnary e) : ReadsPostfix (.unary op e) := by
  intro fuel hlen m k l r l' _ hloop
  have hne : op ≠ "&" := by
    rcases hop with rfl | rfl <;> decide
  have hkinds : ∀ l, bodyKinds (.unary op e) ++ l = (.lParen, "(") ::
      (unaryKind op :: (kinds e ++ (.rParen, ")") :: l)) := by
    intro l
    rw [bodyKinds, if_neg hne]
    simp only [kinds, List.append_assoc, List.cons_append, List.nil_append]
  have hlength := congrArg List.length (hkinds [])
  simp only [List.append_nil, List.length_append, List.length_cons, List.length_nil] at hlength
  obtain ⟨fuel, rfl⟩ : ∃ n, fuel = n + 1 := ⟨fuel - 1, by omega⟩
  have hends : EndsArg ((.rParen, ")") : Kind) := .inr rfl
  have hunary : Parses (ladder (parseExpr fuel) (fuel + 1) 0)
      (unaryKind op :: (kinds e ++ (.rParen, ")") :: k :: l)) (.unary op e)
      ((.rParen, ")") :: k :: l) :=
    unary_parses hop hplain hgrouped h (by omega) hends.endsPostfix
  rw [hkinds]
  exact (primary_paren (expr_of_ladder hunary hends.opLevel)).bind hloop

theorem moreKinds_length (args : List Expr) : args.length ≤ (moreKinds args).length ∧
    ∀ e ∈ args, (kinds e).length ≤ (moreKinds args).length := by
  induction args with
  | nil => exact ⟨le_rfl, List.forall_mem_nil _⟩
  | cons e args ih =>
    have hlength : (moreKinds (e :: args)).length
        = (kinds e).length + 1 + (moreKinds args).length := List.length_append
    rw [hlength, List.length_cons, List.forall_mem_cons]
    refine ⟨by omega, by omega, fun e' he' ↦ ?_⟩
    have hle := ih.2 e' he'
    omega

theorem argKinds_length (hplain : ∀ e ∈ args, Plain e) : args.length ≤ (argKinds args).length ∧
    ∀ e ∈ args, (kinds e).length ≤ (argKinds args).length := by
  cases args with
  | nil => exact ⟨le_rfl, List.forall_mem_nil _⟩
  | cons e args =>
    obtain ⟨k, l, hk, -⟩ := kinds_cons (hplain e List.mem_cons_self)
    have hpos : 0 < (kinds e).length := by
      rw [hk]
      exact Nat.succ_pos _
    have hlength : (argKinds (e :: args)).length = (kinds e).length + (moreKinds args).length :=
      List.length_append
    have hmore := moreKinds_length args
    rw [hlength, List.length_cons, List.forall_mem_cons]
    refine ⟨by omega, by omega, fun e' he' ↦ ?_⟩
    have hle := hmore.2 e' he'
    omega

theorem args_parses {fuel : ℕ} (hplain : ∀ e ∈ args, Plain e) (hgrouped : ∀ e ∈ args, Grouped e)
    (h : ∀ e ∈ args, ReadsUnary e) (hlen : (argKinds args).length ≤ fuel) (l : List Kind) :
    Parses (parseArgs (parseExpr fuel) (fuel + 1))
      ((.lParen, "(") :: (argKinds args ++ (.rParen, ")") :: l)) args l := by
  have hlength := argKinds_length hplain
  refine parseArgs_parses hplain (fun e he k l hk ↦ ?_) (by omega)
  exact expr_of_unary (hplain e he) (hgrouped e he) (h e he)
    ((hlength.2 e he).trans hlen) hk.endsPostfix hk.opLevel

/-- A postfix form: the kinds behind the expression are read in one more round. -/
theorem ReadsPostfix.more {e' : Expr} {p : Kind} {ks : List Kind} (h : ReadsPostfix e)
    (hkinds : bodyKinds e' = bodyKinds e ++ p :: ks) (hrounds : rounds e' = rounds e + 1)
    (hfield : e.isField = true → p.1 ≠ .lParen)
    (hround : ∀ fuel, ks.length ≤ fuel → ∀ k l, (e'.isField = true → k.1 ≠ .lParen) →
      Parses (postfixRound (parseExpr fuel) (fuel + 1) e) (p :: (ks ++ k :: l)) (.again e')
        (k :: l)) : ReadsPostfix e' := by
  intro fuel hlen m k l r l' hk hloop
  rw [hkinds, List.length_append, List.length_cons] at hlen
  have hnext := h fuel (by omega) (m + 1) p (ks ++ k :: l) r l' hfield
    (Reads.loop_again (hround fuel (by omega) k l hk) hloop)
  rw [hkinds, hrounds, List.append_assoc, List.cons_append, Nat.add_comm (rounds e),
    ← Nat.add_assoc]
  exact hnext

theorem readsPostfix_call (hcallee : e.isField = false) (h : ReadsPostfix e)
    (hplain : ∀ e ∈ args, Plain e) (hgrouped : ∀ e ∈ args, Grouped e)
    (hargs : ∀ e ∈ args, ReadsUnary e) : ReadsPostfix (.call e args) := by
  have hkinds : bodyKinds (.call e args) =
      bodyKinds e ++ (.lParen, "(") :: (argKinds args ++ [(.rParen, ")")]) := by
    rw [bodyKinds, List.append_assoc, List.cons_append]
  refine h.more hkinds rfl (fun hfield ↦ absurd (hcallee.symm.trans hfield) Bool.false_ne_true)
    fun fuel hlen k l _ ↦ ?_
  rw [List.length_append] at hlen
  rw [List.append_assoc]
  exact round_call (args_parses hplain hgrouped hargs (by omega) (k :: l))

theorem readsPostfix_method (h : ReadsPostfix e)
    (hplain : ∀ e ∈ args, Plain e) (hgrouped : ∀ e ∈ args, Grouped e)
    (hargs : ∀ e ∈ args, ReadsUnary e) : ReadsPostfix (.method e name args) := by
  have hkinds : bodyKinds (.method e name args) = bodyKinds e ++ (.dot, ".") :: (.ident, name) ::
      (.lParen, "(") :: (argKinds args ++ [(.rParen, ")")]) := by
    rw [bodyKinds, List.append_assoc]
    rfl
  refine h.more hkinds rfl (fun _ ↦ by decide) fun fuel hlen k l _ ↦ ?_
  simp only [List.length_cons, List.length_append] at hlen
  have hparse : Parses (parseArgs (parseExpr fuel) (fuel + 1)) _ args (k :: l) :=
    args_parses hplain hgrouped hargs (by omega) (k :: l)
  have hround : Parses (postfixRound _ _ e) ((.dot, ".") :: (.ident, name) :: _)
      (.again (.method e name args)) (k :: l) := round_method hparse
  rw [List.cons_append, List.cons_append, List.append_assoc]
  exact hround

theorem readsPostfix_field (h : ReadsPostfix e) : ReadsPostfix (.field e name) := by
  refine h.more rfl rfl (fun _ ↦ by decide) fun fuel _ k l hk ↦ ?_
  exact round_field (hk rfl)

/-- Either way of reading an operand that is no reference. -/
theorem reads_of_postfix (hplain : Plain e) (hgrouped : Grouped e) (href : e.isRef = false)
    (h : ReadsPostfix e) : ReadsUnary e ∧ (e.isRef = false → ReadsPostfix e) :=
  ⟨readsUnary_of_readsPostfix hplain hgrouped href h, fun _ ↦ h⟩

end

mutual

/-- **Grouped expressions are read as they are**, as operands and at the head of a chain of postfix
forms. -/
theorem reads_grouped : (e : Expr) → Plain e → Grouped e →
    ReadsUnary e ∧ (e.isRef = false → ReadsPostfix e)
  | .int value, h, hgrouped =>
    reads_of_postfix h hgrouped rfl fun _ _ _ _ _ _ _ _ hloop ↦ primary_int.bind hloop
  | .float value, h, hgrouped =>
    reads_of_postfix h hgrouped rfl fun _ _ _ _ _ _ _ _ hloop ↦ primary_float.bind hloop
  | .bool value, h, hgrouped =>
    reads_of_postfix h hgrouped rfl fun _ _ _ _ _ _ _ _ hloop ↦ (primary_bool value).bind hloop
  | .ident name, h, hgrouped =>
    reads_of_postfix h hgrouped rfl fun _ _ _ _ _ _ _ _ hloop ↦ (primary_ident h).bind hloop
  | .binary op left right, h, hgrouped =>
    reads_of_postfix h hgrouped rfl <| readsPostfix_binary h.1
      (reads_grouped left h.2.1 hgrouped.1).1 (reads_grouped right h.2.2 hgrouped.2).1
      (amps_lt_length h.2.1 hgrouped.1) (amps_lt_length h.2.2 hgrouped.2)
  | .unary op operand, h, hgrouped => by
    have hoperand := (reads_grouped operand h.2 hgrouped).1
    by_cases hop : op = "&"
    · refine ⟨readsUnary_ref hop h.2 hgrouped (h.isRef_operand hop) hoperand, fun href ↦ ?_⟩
      exact absurd hop (of_decide_eq_false href)
    · refine reads_of_postfix h hgrouped (decide_eq_false hop)
        (readsPostfix_unary ?_ h.2 hgrouped hoperand)
      exact h.1.imp_right fun h ↦ h.resolve_right fun href ↦ hop href.1
  | .call callee args, h, hgrouped =>
    have hargs := reads_groupeds args h.2 hgrouped.2.2
    reads_of_postfix h hgrouped rfl <| readsPostfix_call hgrouped.1.2
      ((reads_grouped callee h.1 hgrouped.2.1).2 hgrouped.1.1) (fun e he ↦ (hargs e he).1)
      (fun e he ↦ (hargs e he).2.1) fun e he ↦ (hargs e he).2.2
  | .method recv name args, h, hgrouped =>
    have hargs := reads_groupeds args h.2.2 hgrouped.2.2
    reads_of_postfix h hgrouped rfl <| readsPostfix_method
      ((reads_grouped recv h.1 hgrouped.2.1).2 hgrouped.1) (fun e he ↦ (hargs e he).1)
      (fun e he ↦ (hargs e he).2.1) fun e he ↦ (hargs e he).2.2
  | .field recv name, h, hgrouped =>
    reads_of_postfix h hgrouped rfl <|
      readsPostfix_field ((reads_grouped recv h.1 hgrouped.2).2 hgrouped.1)

theorem reads_groupeds : (args : List Expr) → Plains args → Groupeds args →
    ∀ e ∈ args, Plain e ∧ Grouped e ∧ ReadsUnary e
  | [], _, _ => fun _ h ↦ nomatch h
  | e :: args, h, hgrouped => List.forall_mem_cons.mpr
    ⟨⟨h.1, hgrouped.1, (reads_grouped e h.1 hgrouped.1).1⟩, reads_groupeds args h.2 hgrouped.2⟩

end

end Agex

end Zeroxos
