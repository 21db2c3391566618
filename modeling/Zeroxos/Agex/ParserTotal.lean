import Zeroxos.Agex.Parser

/-!
# The agex parser is total

Every function of the parser keeps the contract of `Consumes` when it is given at least as much fuel
as there are tokens left: it stops, it neither leaves the token vector nor passes the `Eof` at its
end, and every round of a loop moves the cursor (`parser_total`).

## The proofs

They follow the text of the functions, one rule for each construct. What has to be looked at is
where a function eats whatever is under the cursor, which it may do only after it has seen what that
is, and that every function called by a loop or by itself eats something first. How much a function
eats at least is the last argument of `Takes`.
-/

namespace Zeroxos

namespace Agex

open Parse

/-- The end marker of a token vector. -/
def IsEof (t : Token) : Prop := t.ty = .eof

/-- With fewer than `n` tokens before `Eof` the parser is safe, and eats at least `k` tokens. -/
abbrev Takes {α : Type} (n : ℕ) (p : P α) (k : ℕ) : Prop := Consumes IsEof n p k

variable {α β : Type} {n i j k fuel : ℕ} {pre : Token → Prop} {ty next : TokenType} {p q : P α}

/-! ## The cursor -/

theorem isAt_bind {f : Bool → P α} {k : α → ℕ}
    (htrue : Safe IsEof n (fun t ↦ pre t ∧ t.ty = ty) (f true) k)
    (hfalse : Safe IsEof n (fun t ↦ pre t ∧ t.ty ≠ ty) (f false) k) :
    Safe IsEof n pre (isAt ty >>= f) k := by
  rw [isAt, bind_assoc]
  refine Safe.current_bind fun t ht ↦ ?_
  rw [pure_bind]
  by_cases hty : t.ty = ty
  · rw [decide_eq_true hty]
    exact htrue.mono le_rfl (fun t' h ↦ h ▸ ⟨ht, hty⟩) fun _ ↦ le_rfl
  · rw [decide_eq_false hty]
    exact hfalse.mono le_rfl (fun t' h ↦ h ▸ ⟨ht, hty⟩) fun _ ↦ le_rfl

theorem ifAt_safe {k : α → ℕ} (hp : Safe IsEof n (fun t ↦ pre t ∧ t.ty = ty) p k)
    (hq : Safe IsEof n (fun t ↦ pre t ∧ t.ty ≠ ty) q k) : Safe IsEof n pre (ifAt ty p q) k :=
  isAt_bind hp hq

theorem eat_safe (hty : ty ≠ .eof) : Safe IsEof n pre (eat ty) fun _ ↦ 1 := by
  refine isAt_bind (Safe.current_bind fun t ht ↦ ?_) (Safe.current_bind fun t _ ↦ Safe.fail _)
  refine Safe.bind (Safe.advance fun t' h heof ↦ ?_) fun _ ↦ Safe.pure t
  subst h
  exact hty (ht.2.symm.trans heof)

theorem eat_takes (hty : ty ≠ .eof) : Takes n (eat ty) 1 := eat_safe hty

theorem eatCur_safe (h : ∀ t, pre t → t.ty ≠ .eof) : Safe IsEof n pre eatCur fun _ ↦ 1 :=
  Safe.current_bind fun t ht ↦ eat_safe (h t ht)

theorem eatCur_at {tok : Token} (htok : tok.ty ≠ .eof) :
    Safe IsEof n (fun t ↦ t = tok) eatCur fun _ ↦ 1 :=
  eatCur_safe fun _ h ↦ h ▸ htok

theorem maybe_safe (hty : ty ≠ .eof) :
    Safe IsEof n pre (maybe ty) fun o ↦ if o.isSome then 1 else 0 := by
  refine isAt_bind (Safe.current_bind fun t ht ↦ ?_) (Safe.pure none)
  refine Safe.bind (Safe.advance fun t' h heof ↦ ?_) fun _ ↦ Safe.pure (some t)
  subst h
  exact hty (ht.2.symm.trans heof)

theorem ifAt_takes (hp : Takes n p k) (hq : Takes n q k) : Takes n (ifAt ty p q) k :=
  ifAt_safe hp.safe hq.safe

theorem isAt_takes {f : Bool → P α} (h : ∀ b, Takes n (f b) k) : Takes n (isAt ty >>= f) k :=
  isAt_bind (h true).safe (h false).safe

theorem ifAtThen_takes (hp : Takes n p k) (hq : Takes n q k) :
    Takes n (ifAtThen ty next p q) k := by
  refine isAt_bind (Safe.lookahead_bind fun t ↦ ?_) hq.safe
  split_ifs
  · exact hp.safe
  · exact hq.safe

theorem ite_takes {c : Prop} [Decidable c] (hp : Takes n p k) (hq : Takes n q k) :
    Takes n (if c then p else q) k := by
  split_ifs
  · exact hp
  · exact hq

theorem ifMaybe_takes (hty : ty ≠ .eof) (hp : Takes (n - 1) p i) (hq : Takes n q 0) :
    Takes n (ifMaybe ty p q) 0 := by
  refine Safe.bind (maybe_safe hty) fun o ↦ ?_
  cases o with
  | none => exact hq
  | some t => exact hp.mono le_rfl (Nat.zero_le i)

theorem whileMaybe_takes (hty : ty ≠ .eof) {body : β → P β} (hbody : ∀ b, Takes (n - 1) (body b) i)
    (hn : n ≤ fuel) (b : β) :
    Takes n (whileLoop (do return (← maybe ty).isSome) body fuel b) 0 := by
  refine Safe.loop (fun b ↦ ?_) hn b
  rw [bind_assoc]
  refine Safe.bind (maybe_safe hty) fun o ↦ ?_
  cases o with
  | none => exact Safe.pure _
  | some t => exact Safe.of_consumes (hbody b).bind_pure

theorem moreItems_takes {item : P α} (hitem : Takes (n - 1) item i) (hn : n ≤ fuel)
    (out : List α) : Takes n (moreItems item fuel out) 0 :=
  whileMaybe_takes (by decide) (fun _ ↦ hitem.bind_pure) hn out

theorem items_takes {close : TokenType} {item : P α} (hitem : Takes n item i) (hn : n ≤ fuel) :
    Takes n (items close item fuel) 0 := by
  refine ifAt_takes (Consumes.pure []) (hitem.bind fun a ↦ ?_)
  exact (moreItems_takes (hitem.le (by omega)) (by omega) [a]).mono le_rfl (Nat.zero_sub i).le

/-- A loop up to a closing token, every item of which eats something. -/
theorem whileNotAt_takes {close : TokenType} {item : P α} (hitem : Takes n item 1) (hn : n ≤ fuel) :
    Takes n (whileNotAt close item fuel) 0 := by
  have hcond : Takes n (do return !(← isAt close)) 0 := isAt_bind (Safe.pure _) (Safe.pure _)
  exact Consumes.whileLoop hcond (fun _ ↦ hitem.bind_pure) hn []

/-! ## What is under the cursor -/

section Eat

variable {c c' : Cursor Token} {t : Token}

theorem cur_ok (h : cur c = (.ok t, c')) :
    c.toks[c.pos]? = some t ∧ c' = c.note (.look c.pos) := by
  rw [cur, current] at h
  cases hget : c.toks[c.pos]? with
  | none =>
    rw [hget] at h
    cases h
  | some t =>
    rw [hget] at h
    cases h
    exact ⟨rfl, rfl⟩

theorem isAt_ok {b : Bool} (h : isAt ty c = (.ok b, c')) :
    ∃ t, c.toks[c.pos]? = some t ∧ b = decide (t.ty = ty) ∧ c' = c.note (.look c.pos) := by
  obtain ⟨t, c₁, hcur, hpure⟩ := exists_of_bind_ok h
  obtain ⟨hget, rfl⟩ := cur_ok hcur
  cases hpure
  exact ⟨t, hget, rfl, rfl⟩

theorem eat_ok (h : eat ty c = (.ok t, c')) :
    c.toks[c.pos]? = some t ∧ t.ty = ty ∧ c'.toks = c.toks ∧ c'.pos = c.pos + 1 := by
  obtain ⟨b, c₁, hat, hrest⟩ := exists_of_bind_ok h
  obtain ⟨t₁, hget, rfl, rfl⟩ := isAt_ok hat
  by_cases hty : t₁.ty = ty
  · rw [decide_eq_true hty, if_pos rfl] at hrest
    obtain ⟨t₂, c₂, hcur, hmove⟩ := exists_of_bind_ok hrest
    obtain ⟨hget', rfl⟩ := cur_ok hcur
    obtain rfl : t₁ = t₂ := Option.some.inj (hget.symm.trans hget')
    obtain ⟨_, c₃, hadvance, hpure⟩ := exists_of_bind_ok hmove
    cases hadvance
    cases hpure
    exact ⟨hget, hty, rfl, rfl⟩
  · rw [decide_eq_false hty, if_neg Bool.false_ne_true] at hrest
    obtain ⟨t₂, c₂, -, hfail⟩ := exists_of_bind_ok hrest
    cases hfail

end Eat

/-! ## Types -/

/-- **Types.** -/
theorem parseType_takes (hn : n ≤ fuel) : Takes n (parseType fuel) 1 := by
  induction fuel generalizing n with
  | zero =>
    obtain rfl := Nat.le_zero.mp hn
    exact Consumes.zero
  | succ fuel ih =>
    -- what is inside a type begins behind its first token
    have hinner : ∀ {m}, m ≤ n - 1 → Takes m (parseType fuel) 1 := fun hm ↦ ih (by omega)
    rw [parseType]
    refine .bind (j := 1) (ifAt_takes ?_ ?_) fun t ↦ ?_
    · refine .bind (eat_takes (by decide)) fun _ ↦ ?_
      exact (hinner le_rfl).bind_pure.mono le_rfl (by omega)
    · refine .bind (eat_takes (by decide)) fun name ↦ ?_
      refine ifMaybe_takes (i := 1) (by decide) ?_ (Consumes.pure _)
      refine .bind (items_takes (hinner (by omega)) (by omega)) fun args ↦ ?_
      exact (eat_takes (by decide)).bind_pure
    · exact ifMaybe_takes (by decide) (Consumes.pure _) (Consumes.pure _)

/-! ## Expressions -/

section Expr

variable {m : ℕ} {parseExpr : P Expr}

theorem parseArgs_takes (hexpr : Takes m parseExpr 1) (hm : n ≤ m + 1) (hn : n ≤ fuel) :
    Takes n (parseArgs parseExpr fuel) 1 := by
  refine .bind (eat_takes (by decide)) fun _ ↦ ?_
  refine .bind (items_takes (hexpr.le (by omega)) (by omega)) fun args ↦ ?_
  exact (eat_takes (by decide)).bind_pure.mono le_rfl (by omega)

theorem parseNamed_takes (hexpr : Takes m parseExpr 1) (hm : n ≤ m + 1) (hn : n ≤ fuel)
    (isPrint : Bool) (value : String) : Takes n (parseNamed parseExpr fuel isPrint value) 0 := by
  have hargs : Takes n (parseArgs parseExpr fuel) 0 :=
    (parseArgs_takes hexpr hm hn).mono le_rfl (Nat.zero_le 1)
  refine ite_takes (Consumes.pure _) <| ite_takes (Consumes.pure _) <|
    ite_takes (Consumes.pure _) <| isAt_takes fun atParen ↦ ?_
  exact ite_takes hargs.bind_pure <|
    ite_takes (ifAt_takes hargs.bind_pure (Consumes.pure _)) (Consumes.pure _)

theorem parseName_safe {tok : Token} (htok : tok.ty ≠ .eof) (hexpr : Takes m parseExpr 1)
    (hm : n ≤ m + 1) (hn : n ≤ fuel) :
    Safe IsEof n (fun t ↦ t = tok) (parseName parseExpr fuel tok) fun _ ↦ 1 := by
  have hrest : ∀ isPrint, Takes (n - 1) (parseNamed parseExpr fuel isPrint tok.value) 0 :=
    fun isPrint ↦ parseNamed_takes hexpr (by omega) (by omega) isPrint tok.value
  have hcur : ∀ {c : Token → Prop} (t : Token), t = tok ∧ c t → t.ty ≠ .eof := by
    rintro c t ⟨rfl, -⟩
    exact htok
  exact isAt_bind (Safe.bind (eatCur_safe hcur) fun _ ↦ hrest true)
    (Safe.bind (eatCur_safe hcur) fun _ ↦ hrest false)

theorem parsePrimary_takes (hexpr : Takes m parseExpr 1) (hm : n ≤ m + 1) (hn : n ≤ fuel) :
    Takes n (parsePrimary parseExpr fuel) 1 := by
  refine Safe.current_bind fun tok _ ↦ ?_
  split
  · exact (eat_takes (by decide)).bind_pure.safe
  · exact (eat_takes (by decide)).bind_pure.safe
  · exact (eat_takes (by decide)).bind_pure.safe
  · exact (eat_takes (by decide)).bind_pure.safe
  · refine Consumes.safe (.bind (eat_takes (by decide)) fun _ ↦ ?_)
    refine .bind (hexpr.le (by omega)) fun e ↦ ?_
    exact (eat_takes (by decide)).bind_pure.mono le_rfl (by omega)
  · rename_i hty
    exact parseName_safe (by rw [hty]; decide) hexpr hm hn
  · rename_i hty
    exact parseName_safe (by rw [hty]; decide) hexpr hm hn
  · rename_i hty
    exact parseName_safe (by rw [hty]; decide) hexpr hm hn
  · exact Safe.fail _

theorem postfixRound_safe (hexpr : Takes m parseExpr 1) (hm : n ≤ m + 1) (hn : n ≤ fuel)
    (expr : Expr) : Safe IsEof n pre (postfixRound parseExpr fuel expr) Round.cost := by
  have hargs : ∀ {l}, l ≤ n → Takes l (parseArgs parseExpr fuel) 1 :=
    fun hl ↦ parseArgs_takes hexpr (by omega) (by omega)
  -- a name after a dot, and perhaps a call
  have hname : ∀ {l} {f : Token → P (Round Expr)}, (∀ name, Takes (l - 1) (f name) 0) →
      Takes l (eat .ident >>= f) 1 := fun hf ↦ .bind (eat_takes (by decide)) hf
  have hcall : ∀ {pre}, Safe IsEof n pre (ifAt .lParen
      (return .again (.call expr (← parseArgs parseExpr fuel))) (return .exit expr)) Round.cost :=
    ifAt_safe (Safe.again (hargs le_rfl).safe) (Safe.pure _)
  refine ifAt_safe ?_ (isAt_bind (Safe.lookahead_bind fun t ↦ ?_) hcall)
  · refine Safe.bind (eat_safe (by decide)) fun _ ↦ Safe.of_consumes (hname fun name ↦ ?_)
    refine ifAt_takes ?_ (Consumes.pure _)
    exact (hargs (by omega)).bind_pure.mono le_rfl (Nat.zero_le 1)
  · split_ifs
    · refine Safe.bind (eat_safe (by decide)) fun _ ↦ Safe.of_consumes (i := 1) ?_
      refine .bind (eat_takes (by decide)) fun _ ↦ (hname fun name ↦ ?_).mono le_rfl (by omega)
      refine ifAt_takes ?_ (Consumes.pure _)
      exact (hargs (by omega)).bind_pure.mono le_rfl (Nat.zero_le 1)
    · exact hcall

theorem parsePostfix_takes (hexpr : Takes m parseExpr 1) (hm : n ≤ m + 1) (hn : n ≤ fuel) :
    Takes n (parsePostfix parseExpr fuel) 1 :=
  .bind (parsePrimary_takes hexpr hm hn) fun expr ↦
    Safe.loop (postfixRound_safe hexpr (by omega) (by omega)) (by omega) expr

theorem parseUnary_takes (hexpr : Takes m parseExpr 1) (hm : n ≤ m + 1) (hn : n ≤ fuel) {depth : ℕ}
    (hdepth : n ≤ depth) : Takes n (parseUnary parseExpr fuel depth) 1 := by
  induction depth generalizing n with
  | zero =>
    obtain rfl := Nat.le_zero.mp hdepth
    exact Consumes.zero
  | succ depth ih =>
    have hinner : Takes (n - 1) (parseUnary parseExpr fuel depth) 0 :=
      (ih (by omega) (by omega) (by omega)).mono le_rfl (Nat.zero_le 1)
    refine Safe.current_bind fun t _ ↦ ?_
    dsimp only
    split_ifs with hop
    · refine Safe.bind (eatCur_at fun heof ↦ ?_) fun tok ↦ hinner.bind_pure
      rw [heof] at hop
      exact absurd hop (by decide)
    · refine Consumes.safe (ifAt_takes ?_ (parsePostfix_takes hexpr hm hn))
      exact .bind (eat_takes (by decide)) fun _ ↦ hinner.bind_pure

theorem chainRound_safe {isOp : TokenType → Bool} {op : Token → String} {operand : P Expr}
    (hop : isOp .eof = false) (hoperand : Takes n operand 1) (left : Expr) :
    Safe IsEof n pre (do
      if ← (do return isOp (← cur).ty) then
        return Round.again (← (do
          let tok ← eatCur
          return .binary (op tok) left (← operand)))
      else return Round.exit left) Round.cost := by
  rw [bind_assoc]
  refine Safe.current_bind fun t _ ↦ ?_
  rw [pure_bind]
  split_ifs with hcur
  · refine Safe.again (Safe.bind (eatCur_at fun heof ↦ ?_) fun tok ↦ ?_)
    · rw [heof, hop] at hcur
      cases hcur
    · exact (hoperand.mono (by omega) (Nat.zero_le 1)).bind_pure
  · exact Safe.pure _

/-- **A chain of operators.** -/
theorem operatorChain_takes {isOp : TokenType → Bool} {op : Token → String} {operand : P Expr}
    (hop : isOp .eof = false) (hoperand : Takes n operand 1) (hn : n ≤ fuel) :
    Takes n (operatorChain fuel isOp op operand) 1 :=
  .bind hoperand fun left ↦ Safe.loop
    (chainRound_safe hop (hoperand.le (Nat.sub_le n 1))) ((Nat.sub_le n 1).trans hn) left

theorem parseMul_takes (hexpr : Takes m parseExpr 1) (hm : n ≤ m + 1) (hn : n ≤ fuel) :
    Takes n (parseMul parseExpr fuel) 1 :=
  operatorChain_takes rfl (parseUnary_takes hexpr hm hn hn) hn

theorem parseAdd_takes (hexpr : Takes m parseExpr 1) (hm : n ≤ m + 1) (hn : n ≤ fuel) :
    Takes n (parseAdd parseExpr fuel) 1 :=
  operatorChain_takes rfl (parseMul_takes hexpr hm hn) hn

theorem parseIs_takes (hexpr : Takes m parseExpr 1) (hm : n ≤ m + 1) (hn : n ≤ fuel) :
    Takes n (parseIs parseExpr fuel) 1 := by
  refine .bind (parseAdd_takes hexpr hm hn) fun left ↦ Consumes.whileLoop ?_ (fun left ↦ ?_)
    (by omega) left
  · exact ifAt_takes (Safe.current_bind fun t _ ↦ Safe.pure _) (Consumes.pure _)
  · exact .bind (eat_takes (by decide)) fun _ ↦
      (eat_takes (by decide)).bind_pure.mono le_rfl (Nat.zero_le 1)

theorem parseCmp_takes (hexpr : Takes m parseExpr 1) (hm : n ≤ m + 1) (hn : n ≤ fuel) :
    Takes n (parseCmp parseExpr fuel) 1 :=
  operatorChain_takes rfl (parseIs_takes hexpr hm hn) hn

theorem parseEq_takes (hexpr : Takes m parseExpr 1) (hm : n ≤ m + 1) (hn : n ≤ fuel) :
    Takes n (parseEq parseExpr fuel) 1 :=
  operatorChain_takes rfl (parseCmp_takes hexpr hm hn) hn

theorem parseAnd_takes (hexpr : Takes m parseExpr 1) (hm : n ≤ m + 1) (hn : n ≤ fuel) :
    Takes n (parseAnd parseExpr fuel) 1 :=
  operatorChain_takes rfl (parseEq_takes hexpr hm hn) hn

theorem parseOr_takes (hexpr : Takes m parseExpr 1) (hm : n ≤ m + 1) (hn : n ≤ fuel) :
    Takes n (parseOr parseExpr fuel) 1 :=
  operatorChain_takes rfl (parseAnd_takes hexpr hm hn) hn

theorem parseElvis_takes (hexpr : Takes m parseExpr 1) (hm : n ≤ m + 1) (hn : n ≤ fuel) :
    Takes n (parseElvis parseExpr fuel) 1 := by
  refine .bind (parseOr_takes hexpr hm hn) fun left ↦ Consumes.whileLoop ?_ (fun left ↦ ?_)
    (by omega) left
  · exact ifAtThen_takes (Consumes.pure _) (Consumes.pure _)
  · refine .bind (eat_takes (by decide)) fun _ ↦ .bind (eat_takes (by decide)) fun _ ↦ ?_
    exact ((parseOr_takes hexpr (by omega) (by omega)).mono le_rfl (Nat.zero_le 1)).bind_pure

end Expr

/-- **Expressions.** -/
theorem parseExpr_takes (hn : n ≤ fuel) : Takes n (parseExpr fuel) 1 := by
  induction fuel generalizing n with
  | zero =>
    obtain rfl := Nat.le_zero.mp hn
    exact Consumes.zero
  | succ fuel ih => exact parseElvis_takes (ih le_rfl) hn hn

/-! ## Statements -/

section Stmt

variable {m : ℕ} {parseStmt : P Stmt}

theorem parseStmts_takes (hstmt : Takes n parseStmt 1) (hn : n ≤ fuel) :
    Takes n (parseStmts parseStmt fuel) 0 := by
  have hcond : Takes n (ifAt .rBrace (return false) (return !(← isAt .eof))) 0 :=
    ifAt_takes (Consumes.pure _) (isAt_takes fun _ ↦ Consumes.pure _)
  exact Consumes.whileLoop hcond (fun _ ↦ hstmt.bind_pure) hn []

theorem parseBlock_takes (hstmt : Takes m parseStmt 1) (hm : n ≤ m + 1) (hn : n ≤ fuel) :
    Takes n (parseBlock parseStmt fuel) 1 := by
  refine .bind (eat_takes (by decide)) fun _ ↦ ?_
  refine .bind (parseStmts_takes (hstmt.le (by omega)) (by omega)) fun body ↦ ?_
  exact (eat_takes (by decide)).bind_pure.mono le_rfl (by omega)

theorem ifAssign_takes (hn : n ≤ fuel) :
    Takes n (ifMaybe .assign (return some (← parseExpr fuel)) (return none)) 0 :=
  ifMaybe_takes (by decide) (parseExpr_takes (by omega)).bind_pure (Consumes.pure _)

theorem parseBinding_takes {kw : TokenType} {mk : String → TypeNode → Option Expr → Stmt}
    (hkw : kw ≠ .eof) (hn : n ≤ fuel) : Takes n (parseBinding fuel kw mk) 1 := by
  refine .bind (eat_takes hkw) fun _ ↦ .bind (eat_takes (by decide)) fun name ↦ ?_
  refine .bind (ifMaybe_takes (by decide) (parseType_takes (by omega)) (Consumes.pure _))
    fun ty ↦ ?_
  exact (ifAssign_takes (by omega)).bind_pure.mono le_rfl (by omega)

theorem parseReturn_takes (hn : n ≤ fuel) : Takes n (parseReturn fuel) 1 := by
  refine .bind (eat_takes (by decide)) fun _ ↦ ?_
  refine ifAt_takes (Consumes.pure _) <| ifAt_takes (Consumes.pure _) <|
    ifAt_takes (Consumes.pure _) ?_
  exact (parseExpr_takes (by omega)).bind_pure.mono le_rfl (by omega)

theorem parseIf_takes (hstmt : Takes m parseStmt 1) (hm : n ≤ m + 1) (hn : n ≤ fuel) {depth : ℕ}
    (hdepth : n ≤ depth) : Takes n (parseIf parseStmt fuel depth) 1 := by
  induction depth generalizing n with
  | zero =>
    obtain rfl := Nat.le_zero.mp hdepth
    exact Consumes.zero
  | succ depth ih =>
    refine .bind (eat_takes (by decide)) fun _ ↦ ?_
    refine .bind (parseExpr_takes (by omega)) fun cond ↦ ?_
    refine .bind (parseBlock_takes hstmt (by omega) (by omega)) fun thenBody ↦ ?_
    refine .bind (ifMaybe_takes (i := 1) (by decide) (ifAt_takes ?_ ?_) (Consumes.pure _))
      fun els ↦ (Consumes.pure _).mono le_rfl (by omega)
    · exact (ih (by omega) (by omega) (by omega)).bind_pure
    · exact (parseBlock_takes hstmt (by omega) (by omega)).bind_pure

theorem parseFor_takes (hstmt : Takes m parseStmt 1) (hm : n ≤ m + 1) (hn : n ≤ fuel) :
    Takes n (parseFor parseStmt fuel) 1 := by
  refine .bind (eat_takes (by decide)) fun _ ↦ .bind (eat_takes (by decide)) fun var ↦ ?_
  refine .bind (eat_takes (by decide)) fun _ ↦ .bind (parseExpr_takes (by omega)) fun iter ↦ ?_
  exact (parseBlock_takes hstmt (by omega) (by omega)).bind_pure.mono le_rfl (by omega)

theorem parseBindings_takes (hn : n ≤ fuel) : Takes n (parseBindings fuel) 0 := by
  refine ifMaybe_takes (i := 1) (by decide) ?_ (Consumes.pure _)
  refine .bind (items_takes (eat_takes (by decide)).bind_pure (by omega)) fun bindings ↦ ?_
  exact (eat_takes (by decide)).bind_pure

theorem parsePattern_takes (hn : n ≤ fuel) : Takes n (parsePattern fuel) 0 := by
  refine ifAt_takes ?_ (ifAt_takes ?_ (Consumes.pure _))
  · refine .bind (eat_takes (by decide)) fun first ↦ ?_
    refine .bind (whileMaybe_takes (by decide) (fun _ ↦ (eat_takes (by decide)).bind_pure)
      (by omega) _) fun pattern ↦ ?_
    exact (parseBindings_takes (by omega)).bind_pure
  · exact .bind (eat_takes (by decide)) fun _ ↦ Consumes.pure _

/-- Whatever the pattern is, the arrow is eaten. -/
theorem parseCase_takes (hstmt : Takes m parseStmt 1) (hm : n ≤ m + 1) (hn : n ≤ fuel) :
    Takes n (parseCase parseStmt fuel) 1 := by
  refine .bind (parsePattern_takes hn) fun head ↦ .bind (eat_takes (by decide)) fun _ ↦ ?_
  refine .bind (j := 0) (ifMaybe_takes (i := 1) (by decide) ?_ ?_)
    fun body ↦ (Consumes.pure _).mono le_rfl (by omega)
  · refine .bind (parseStmts_takes (hstmt.le (by omega)) (by omega)) fun body ↦ ?_
    exact (eat_takes (by decide)).bind_pure
  · exact (hstmt.mono (by omega) (Nat.zero_le 1)).bind_pure

theorem parseMatch_takes (hstmt : Takes m parseStmt 1) (hm : n ≤ m + 1) (hn : n ≤ fuel) :
    Takes n (parseMatch parseStmt fuel) 1 := by
  refine .bind (eat_takes (by decide)) fun _ ↦ .bind (parseExpr_takes (by omega)) fun expr ↦ ?_
  refine .bind (eat_takes (by decide)) fun _ ↦ ?_
  refine .bind (whileNotAt_takes (parseCase_takes hstmt (by omega) (by omega)) (by omega))
    fun cases ↦ ?_
  exact (eat_takes (by decide)).bind_pure.mono le_rfl (by omega)

theorem parsePrint_takes (hn : n ≤ fuel) : Takes n (parsePrint fuel) 1 := by
  refine .bind (eat_takes (by decide)) fun _ ↦ ?_
  exact (parseArgs_takes (parseExpr_takes le_rfl) (by omega) (by omega)).bind_pure.mono le_rfl
    (by omega)

theorem parseUnsafe_takes (hstmt : Takes m parseStmt 1) (hm : n ≤ m + 1) (hn : n ≤ fuel) :
    Takes n (parseUnsafe parseStmt fuel) 1 := by
  refine .bind (eat_takes (by decide)) fun _ ↦ ?_
  exact (parseBlock_takes hstmt (by omega) (by omega)).bind_pure.mono le_rfl (by omega)

theorem parseExprOrAssign_takes (hn : n ≤ fuel) : Takes n (parseExprOrAssign fuel) 1 := by
  refine .bind (parseExpr_takes hn) fun expr ↦ Safe.current_bind fun t _ ↦ ?_
  split
  · rename_i op hop
    refine Safe.bind (eatCur_at fun heof ↦ ?_) fun _ ↦ ?_
    · rw [heof] at hop
      cases hop
    · exact ((parseExpr_takes (by omega)).mono le_rfl (by omega)).bind_pure
  · exact (Consumes.pure _).safe

end Stmt

/-- **Statements.** -/
theorem parseStmt_takes (hn : n ≤ fuel) : Takes n (parseStmt fuel) 1 := by
  induction fuel generalizing n with
  | zero =>
    obtain rfl := Nat.le_zero.mp hn
    exact Consumes.zero
  | succ fuel ih =>
    have hstmt : Takes fuel (parseStmt fuel) 1 := ih le_rfl
    refine Safe.current_bind fun t _ ↦ ?_
    split
    · exact (parseBinding_takes (by decide) hn).safe
    · exact (parseBinding_takes (by decide) hn).safe
    · exact (parseBinding_takes (by decide) hn).safe
    · exact (parseReturn_takes hn).safe
    · exact (parseIf_takes hstmt hn hn hn).safe
    · exact (parseFor_takes hstmt hn hn).safe
    · exact (parseMatch_takes hstmt hn hn).safe
    · exact (parsePrint_takes hn).safe
    · exact (parseUnsafe_takes hstmt hn hn).safe
    · exact (parseExprOrAssign_takes hn).safe

/-! ## Declarations -/

theorem parseImport_takes : Takes n parseImport 1 := by
  refine .bind (eat_takes (by decide)) fun _ ↦ ?_
  exact (eat_takes (by decide)).bind_pure.mono le_rfl (by omega)

theorem paramRound_safe (hn : n ≤ fuel) (params : List Param) :
    Safe IsEof n pre (paramRound fuel params) Round.cost := by
  refine ifAt_safe (Safe.pure _) (Safe.bind (j := fun _ ↦ 0) (Consumes.safe ?_) fun mutable ↦ ?_)
  · refine ifAt_takes ?_ (Consumes.pure _)
    exact .bind (eat_takes (by decide)) fun _ ↦ (Consumes.pure _).mono le_rfl (by omega)
  · -- every parameter has a name
    refine Safe.bind (eat_safe (by decide)) fun name ↦ Safe.of_consumes (i := 0) ?_
    refine .bind (eat_takes (by decide)) fun _ ↦ .bind (parseType_takes (by omega)) fun ty ↦ ?_
    refine .bind (ifAssign_takes (by omega)) fun default ↦ ?_
    exact (ifMaybe_takes (by decide) (Consumes.pure _) (Consumes.pure _)).mono le_rfl (by omega)

theorem parseParams_takes (hn : n ≤ fuel) : Takes n (parseParams fuel) 0 :=
  Safe.loop (paramRound_safe hn) hn []

theorem parseSignature_takes (hn : n ≤ fuel) : Takes n (parseSignature fuel) 1 := by
  refine .bind (eat_takes (by decide)) fun _ ↦ .bind (parseParams_takes (by omega)) fun params ↦ ?_
  refine .bind (eat_takes (by decide)) fun _ ↦ ?_
  exact (ifMaybe_takes (by decide) (parseType_takes (by omega)) (Consumes.pure _)).bind_pure.mono
    le_rfl (by omega)

theorem parseExternFn_takes (hn : n ≤ fuel) : Takes n (parseExternFn fuel) 1 := by
  refine .bind (eat_takes (by decide)) fun _ ↦ .bind (eat_takes (by decide)) fun name ↦ ?_
  exact (parseSignature_takes (by omega)).bind_pure.mono le_rfl (by omega)

theorem parseExtern_takes (hn : n ≤ fuel) : Takes n (parseExtern fuel) 1 := by
  refine .bind (eat_takes (by decide)) fun _ ↦ ?_
  refine Safe.bind (maybe_safe (by decide)) fun abi ↦ ?_
  refine Consumes.mono (j := 0) ?_ (Nat.sub_le _ _) (by omega)
  refine .bind (eat_takes (by decide)) fun _ ↦ ?_
  refine .bind (whileNotAt_takes (parseExternFn_takes (by omega)) (by omega)) fun fns ↦ ?_
  exact (eat_takes (by decide)).bind_pure.mono le_rfl (by omega)

theorem parseInterruptAsStmt_takes (hn : n ≤ fuel) : Takes n (parseInterruptAsStmt fuel) 1 := by
  refine .bind (eat_takes (by decide)) fun _ ↦ .bind (eat_takes (by decide)) fun _ ↦ ?_
  refine .bind (eat_takes (by decide)) fun _ ↦ .bind (eat_takes (by decide)) fun _ ↦ ?_
  exact (parseBlock_takes (parseStmt_takes le_rfl) (by omega) (by omega)).bind_pure.mono le_rfl
    (by omega)

/-- What is eaten here is the token before the body. -/
theorem parseExprBody_safe (hty : ty ≠ .eof) (hn : n ≤ fuel) :
    Safe IsEof n (fun t ↦ pre t ∧ t.ty = ty) (parseExprBody fuel) fun _ ↦ 1 := by
  refine Safe.bind (eatCur_safe fun _ h heof ↦ hty (h.2.symm.trans heof)) fun _ ↦ ?_
  refine Consumes.bind (j := 1) (parseExpr_takes (by omega)) fun body ↦ ?_
  refine Safe.bind (maybe_safe (by decide)) fun _ ↦ ?_
  exact (Consumes.pure _).mono le_rfl (by omega)

theorem parseFnBody_takes (hn : n ≤ fuel) : Takes n (parseFnBody fuel) 1 := by
  refine ifAt_safe (parseExprBody_safe (by decide) hn) ?_
  refine ifAt_safe (parseExprBody_safe (by decide) hn) ?_
  refine ifAt_safe ?_ (Safe.current_bind fun t _ ↦ Safe.fail _)
  exact (parseBlock_takes (parseStmt_takes le_rfl) (by omega) hn).bind_pure.safe

theorem parseFn_takes (isAsync isUnsafe : Bool) (hn : n ≤ fuel) :
    Takes n (parseFn fuel isAsync isUnsafe) 1 := by
  refine .bind (j := 0) (ite_takes ?_ (Consumes.pure _)) fun _ ↦ ?_
  · exact (eat_takes (by decide)).bind_pure.mono le_rfl (Nat.zero_le 1)
  refine .bind (eat_takes (by decide)) fun _ ↦ ?_
  refine .bind (j := 0) (ifAtThen_takes ?_ (Consumes.pure _)) fun receiver ↦ ?_
  · refine .bind (eat_takes (by decide)) fun _ ↦ ?_
    exact (eat_takes (by decide)).bind_pure.mono le_rfl (by omega)
  refine .bind (eat_takes (by decide)) fun name ↦ ?_
  refine .bind (parseSignature_takes (by omega)) fun signature ↦ ?_
  exact (parseFnBody_takes (by omega)).bind_pure.mono le_rfl (by omega)

/-- The loop moves the cursor by hand, but only where it is neither at `)` nor at `Eof`. -/
theorem skipOptionalParens_takes (hn : n ≤ fuel) : Takes n (skipOptionalParens fuel) 0 := by
  refine ifAt_takes ?_ (Consumes.pure _)
  refine Safe.bind (Safe.attempt (eat_safe (by decide))) fun _ ↦ ?_
  refine Consumes.bind (j := 0) (Safe.loop (fun _ ↦ ?_) ((Nat.sub_le _ _).trans hn) ()) fun _ ↦ ?_
  · rw [ifAt, bind_assoc]
    refine isAt_bind (Safe.pure _) ?_
    rw [if_neg Bool.false_ne_true, bind_assoc]
    refine isAt_bind (Safe.pure _) ?_
    have hmove : ∀ {m}, Safe IsEof m (fun t ↦ (True ∧ t.ty ≠ .rParen) ∧ t.ty ≠ .eof)
        (advance : P Unit) fun _ ↦ 1 := Safe.advance fun t h heof ↦ h.2 heof
    exact Safe.again hmove (g := fun b ↦ b)
  · exact Safe.bind (Safe.attempt (eat_safe (by decide))) fun _ ↦
      (Consumes.pure _).mono le_rfl (by omega)

theorem parseBase_takes (hn : n ≤ fuel) : Takes n (parseBase fuel) 1 := by
  refine .bind (eat_takes (by decide)) fun name ↦ ?_
  exact (skipOptionalParens_takes (by omega)).bind_pure

theorem parseMember_takes (hn : n ≤ fuel) : Takes n (parseMember fuel) 1 :=
  ifAt_takes (parseFn_takes false false hn) (Safe.current_bind fun _ _ ↦ Safe.fail _)

theorem classParams_takes (hn : n ≤ fuel) : Takes n (ifMaybe .lParen (do
    let params ← parseParams fuel
    let _ ← eat .rParen
    return params) (return [])) 0 := by
  refine ifMaybe_takes (i := 0) (by decide) ?_ (Consumes.pure _)
  refine .bind (parseParams_takes (by omega)) fun params ↦ ?_
  exact (eat_takes (by decide)).bind_pure.mono le_rfl (by omega)

theorem classBases_takes (hn : n ≤ fuel) : Takes n (ifMaybe .colon (do
    moreItems (parseBase fuel) fuel [← parseBase fuel]) (return [])) 0 := by
  refine ifMaybe_takes (i := 0) (by decide) ?_ (Consumes.pure _)
  refine .bind (parseBase_takes (by omega)) fun base ↦ ?_
  exact moreItems_takes (parseBase_takes (by omega)) (by omega) [base]

theorem classMembers_takes (hn : n ≤ fuel) : Takes n (ifMaybe .lBrace (do
    let members ← whileNotAt .rBrace (parseMember fuel) fuel
    let _ ← eat .rBrace
    return (members, ([] : List ClassDecl))) (return ([], []))) 0 := by
  refine ifMaybe_takes (i := 0) (by decide) ?_ (Consumes.pure _)
  refine .bind (whileNotAt_takes (parseMember_takes (by omega)) (by omega)) fun members ↦ ?_
  exact (eat_takes (by decide)).bind_pure.mono le_rfl (by omega)

theorem parseClass_takes (hn : n ≤ fuel) {depth : ℕ} (hdepth : n ≤ depth)
    (isData isSealed : Bool) : Takes n (parseClass fuel depth isData isSealed) 1 := by
  induction depth generalizing n isData isSealed with
  | zero =>
    obtain rfl := Nat.le_zero.mp hdepth
    exact Consumes.zero
  | succ depth ih =>
    refine .bind (eat_takes (by decide)) fun name ↦ ?_
    refine .bind (classParams_takes (by omega)) fun params ↦ ?_
    refine .bind (classBases_takes (by omega)) fun bases ↦ ?_
    refine .bind (j := 0) (ite_takes (ifAtThen_takes ?_ (classMembers_takes (by omega)))
      (classMembers_takes (by omega))) fun body ↦ (Consumes.pure _).mono le_rfl (by omega)
    -- the subclasses of a sealed class
    refine .bind (eat_takes (by decide)) fun _ ↦ ?_
    refine .bind (whileNotAt_takes (.bind (eat_takes (by decide)) fun _ ↦ ?_) (by omega))
      fun subclasses ↦ (eat_takes (by decide)).bind_pure.mono le_rfl (by omega)
    exact (ih (by omega) (by omega) false false).mono le_rfl (by omega)

theorem parseMethods_takes (hn : n ≤ fuel) : Takes n (parseMethods fuel) 1 := by
  refine .bind (eat_takes (by decide)) fun _ ↦ ?_
  refine .bind (whileNotAt_takes (parseFn_takes false false (by omega)) (by omega))
    fun methods ↦ ?_
  exact (eat_takes (by decide)).bind_pure.mono le_rfl (by omega)

theorem parseInterface_takes (hn : n ≤ fuel) : Takes n (parseInterface fuel) 1 := by
  refine .bind (eat_takes (by decide)) fun _ ↦ .bind (eat_takes (by decide)) fun name ↦ ?_
  exact (parseMethods_takes (by omega)).bind_pure.mono le_rfl (by omega)

theorem parseObject_takes (hn : n ≤ fuel) : Takes n (parseObject fuel) 1 := by
  refine .bind (eat_takes (by decide)) fun _ ↦ .bind (eat_takes (by decide)) fun name ↦ ?_
  exact (parseMethods_takes (by omega)).bind_pure.mono le_rfl (by omega)

theorem parseDriver_takes (hn : n ≤ fuel) : Takes n (parseDriver fuel) 1 := by
  refine .bind (eat_takes (by decide)) fun _ ↦ .bind (eat_takes (by decide)) fun name ↦ ?_
  refine .bind (eat_takes (by decide)) fun _ ↦ .bind (eat_takes (by decide)) fun implements ↦ ?_
  exact (parseMethods_takes (by omega)).bind_pure.mono le_rfl (by omega)

/-- **Declarations.** -/
theorem parseDecl_takes (hn : n ≤ fuel) : Takes n (parseDecl fuel) 1 := by
  have hclass : ∀ {l} (isData isSealed : Bool), l ≤ n →
      Takes l (eat .classKw >>= fun _ ↦ do
        return Decl.classDecl (← parseClass fuel fuel isData isSealed)) 1 := by
    intro l isData isSealed hl
    refine .bind (eat_takes (by decide)) fun _ ↦ ?_
    exact (parseClass_takes (by omega) (by omega) isData isSealed).bind_pure.mono le_rfl (by omega)
  refine ifAt_takes parseImport_takes.bind_pure ?_
  refine ifAt_takes (parseExtern_takes hn).bind_pure ?_
  refine ifAt_takes (parseFn_takes _ _ hn).bind_pure ?_
  refine ifAt_takes (parseFn_takes _ _ hn).bind_pure ?_
  refine ifAtThen_takes (.bind (eat_takes (by decide)) fun _ ↦ ?_) ?_
  · exact (parseFn_takes _ _ (by omega)).bind_pure.mono le_rfl (by omega)
  refine ifAt_takes (parseInterruptAsStmt_takes hn).bind_pure ?_
  refine ifAt_takes (.bind (eat_takes (by decide)) fun _ ↦ ?_) ?_
  · exact (hclass true false (by omega)).mono le_rfl (by omega)
  refine ifAt_takes (.bind (eat_takes (by decide)) fun _ ↦ ?_) ?_
  · exact (hclass false true (by omega)).mono le_rfl (by omega)
  refine ifAt_takes (hclass false false le_rfl) ?_
  refine ifAt_takes (parseInterface_takes hn).bind_pure ?_
  refine ifAt_takes (parseObject_takes hn).bind_pure ?_
  exact ifAt_takes (parseDriver_takes hn).bind_pure (parseStmt_takes hn).bind_pure

theorem parseProgram_takes (hn : n ≤ fuel) : Takes n (parseProgram fuel) 0 :=
  (whileNotAt_takes (parseDecl_takes hn) hn).bind_pure

/-! ## The parser on what the lexer returns -/

theorem EndsWithEof.valid {toks : List Token} (h : EndsWithEof toks) :
    (newParser toks).Valid IsEof := by
  obtain ⟨init, eof, rfl, heof, -⟩ := h
  refine ⟨?_, fun t ht ↦ ?_, fun _ h ↦ nomatch h⟩
  · show 0 < (init ++ [eof]).length
    rw [List.length_append]
    exact Nat.succ_pos _
  · have hlast : (init ++ [eof]).getLast? = some t := ht
    rw [List.getLast?_concat] at hlast
    cases hlast
    exact heof

/-- **The parser is total.** On the tokens of any source, with at least as much fuel as there are
tokens, it returns a program or an error. It never looks behind the `Eof`, it never passes it, and
every completed round of a loop has moved the cursor. -/
theorem parser_total {src : String} {toks : List Token} (htoks : tokenize src = some (.ok toks))
    {fuel : ℕ} (hfuel : toks.length ≤ fuel) :
    ∃ init eof, toks = init ++ [eof] ∧ eof.ty = .eof ∧ (∀ t ∈ init, t.ty ≠ .eof)
      ∧ parse fuel src = (parseProgram fuel (newParser toks)).1
      ∧ ((∃ program, parse fuel src = .ok program) ∨ ∃ e, parse fuel src = .err e)
      ∧ (parseProgram fuel (newParser toks)).2.toks = toks
      ∧ ∀ event ∈ (parseProgram fuel (newParser toks)).2.log, event.Ok init.length := by
  obtain ⟨r, hr, hspec⟩ := tokenize_spec src
  obtain rfl : r = .ok toks := Option.some.inj (hr.symm.trans htoks)
  have hvalid := (hspec toks rfl).valid
  obtain ⟨init, eof, hsplit, heof, hinit⟩ := hspec toks rfl
  have hlength : toks.length = init.length + 1 := by rw [hsplit, List.length_append]; rfl
  have hrem : (newParser toks).remaining < toks.length := by
    show toks.length - 1 - 0 < toks.length
    omega
  obtain ⟨hkeep, hvalid', -, hmeets⟩ :=
    parseProgram_takes hfuel (newParser toks) hvalid (fun _ _ ↦ trivial) hrem
  have hparse : parse fuel src = (parseProgram fuel (newParser toks)).1 := by
    rw [parse, htoks]
  refine ⟨init, eof, hsplit, heof, hinit, hparse, hparse ▸ hmeets.ok_or_err, hkeep,
    fun event hevent ↦ ?_⟩
  have hlast : (newParser toks).toks.length - 1 = init.length := Nat.sub_eq_of_eq_add hlength
  have hok := hvalid'.log event hevent
  rwa [hkeep, hlast] at hok

/-- The tokens of a function whose value is `1`. -/
def constFnTokens : List Token :=
  [⟨.fnKw, "fn", 1, 1⟩, ⟨.ident, "f", 1, 4⟩, ⟨.lParen, "(", 1, 5⟩, ⟨.rParen, ")", 1, 6⟩,
    ⟨.fatArrow, "=>", 1, 8⟩, ⟨.intLiteral, "1", 1, 11⟩, ⟨.eof, "", 1, 12⟩]

theorem parser_total_constFn :
    ((∃ program, parse 7 "fn f() => 1" = .ok program) ∨ ∃ e, parse 7 "fn f() => 1" = .err e)
      ∧ ∀ event ∈ (parseProgram 7 (newParser constFnTokens)).2.log, event.Ok 6 := by
  have htoks : tokenize "fn f() => 1" = some (.ok constFnTokens) := by rfl
  have hfuel : constFnTokens.length ≤ 7 := le_rfl
  obtain ⟨init, eof, hsplit, -, -, -, hret, -, hlog⟩ := parser_total htoks hfuel
  have hlength : init.length = 6 := by
    have h := congrArg List.length hsplit
    rw [List.length_append] at h
    exact (Nat.succ.inj h).symm
  exact ⟨hret, hlength ▸ hlog⟩

end Agex

end Zeroxos
