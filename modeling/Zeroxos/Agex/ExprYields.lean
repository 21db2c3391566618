import Zeroxos.Agex.ExprTokens
import Zeroxos.Agex.ParserYields

/-!
# The expressions that are parsed

An expression that the parser of agex makes of tokens of the lexer has names that are names, numbers
that are numbers, and no other operators than those of agex.
-/

namespace Zeroxos

namespace Agex

open Parse

mutual

/-- The names, the numbers and the operators of an expression are what they should be. -/
def Written : Expr → Prop
  | .int value => IsInt value
  | .float value => IsFloat value
  | .ident name => (IsName name ∨ name = "range" ∨ name = "print") ∧
    name ∉ ["true", "false", "null", "this"]
  | .binary op left right => (binaryTy op).isSome ∧ Written left ∧ Written right
  | .unary op operand => (op = "!" ∨ op = "-" ∨ op = "&") ∧ Written operand
  | .call callee args => Written callee ∧ AllWritten args
  | .method recv name args => Written recv ∧ IsName name ∧ AllWritten args
  | .field recv name => Written recv ∧ IsName name
  | .safeCall recv name args => Written recv ∧ IsName name ∧ AllWritten args
  | .elvis left right => Written left ∧ Written right
  | .new _ args => AllWritten args
  | .cast expr typeName => Written expr ∧ IsName typeName
  | _ => True

/-- `Written` of each. -/
def AllWritten : List Expr → Prop
  | [] => True
  | e :: l => Written e ∧ AllWritten l

end

theorem allWritten_of_forall {args : List Expr} (h : ∀ e ∈ args, Written e) : AllWritten args := by
  induction args with
  | nil => trivial
  | cons e args ih =>
    obtain ⟨he, hargs⟩ := List.forall_mem_cons.mp h
    exact ⟨he, ih hargs⟩

variable {m n fuel depth : ℕ} {pre : Token → Prop} {pe : P Expr}

section Expr

variable (htakes : Takes m pe 1) (hpe : Yields m pe Written)

include htakes hpe

theorem parseArgs_yields (hm : n ≤ m + 1) (hn : n ≤ fuel) :
    Yields n (parseArgs pe fuel) AllWritten := by
  refine .after (eat_takes (by decide)) fun _ ↦ ?_
  have hsmaller : Yields (n - 1) pe Written := hpe.mono (by omega) (fun _ h ↦ h) fun _ h ↦ h
  refine .bind (items_takes (htakes.le (by omega)) (by omega))
    (items_yields (htakes.le (by omega)) hsmaller) fun args hargs ↦ ?_
  exact .before (allWritten_of_forall hargs)

theorem parseNamed_yields (hm : n ≤ m + 1) (hn : n ≤ fuel) (isPrint : Bool) {value : String}
    (hvalue : IsName value ∨ value = "range" ∨ value = "print") :
    Yields n (parseNamed pe fuel isPrint value) Written := by
  have hargs := parseArgs_yields htakes hpe hm hn
  have hprintln : Written (.ident "println") :=
    ⟨.inl ⟨⟨'p', rfl, rfl⟩, List.all_eq_true.mp rfl, by decide⟩, by decide⟩
  refine .ite (fun _ ↦ .pure trivial) fun hbool ↦ .ite (fun _ ↦ .pure trivial) fun hnull ↦
    .ite (fun _ ↦ .pure trivial) fun hthis ↦ isAt_any fun atParen ↦ ?_
  have hident : Written (.ident value) := by
    refine ⟨hvalue, ?_⟩
    simp only [List.mem_cons, List.not_mem_nil, or_false, not_or]
    exact ⟨fun h ↦ hbool (.inl h), fun h ↦ hbool (.inr h), hnull, hthis⟩
  refine .ite (fun _ ↦ .bind_pure hargs) fun _ ↦ .ite (fun _ ↦ ?_) fun _ ↦ .pure hident
  exact ifAt_yields (.bind_pure (hargs.imp fun args hargs ↦ ⟨hprintln, hargs⟩)) (.pure hident)

theorem parseName_yields {tok : Token} (hm : n ≤ m + 1) (hn : n ≤ fuel) (hty : tok.ty ≠ .eof)
    (hvalue : IsName tok.value ∨ tok.value = "range" ∨ tok.value = "print") :
    Finds IsEof WellWritten n (fun t ↦ t = tok) (parseName pe fuel tok) Written := by
  have hnamed : ∀ isPrint, Yields (n - 1) (parseNamed pe fuel isPrint tok.value) Written :=
    fun isPrint ↦ parseNamed_yields htakes hpe (by omega) (by omega) isPrint hvalue
  have hcur : ∀ {pre : Token → Prop} (t : Token), t = tok ∧ pre t → t.ty ≠ .eof := by
    rintro pre t ⟨rfl, -⟩
    exact hty
  exact isAt_yields (.after (eatCur_safe hcur) fun _ ↦ hnamed true)
    (.after (eatCur_safe hcur) fun _ ↦ hnamed false)

theorem parsePrimary_yields (hm : n ≤ m + 1) (hn : n ≤ fuel) :
    Yields n (parsePrimary pe fuel) Written := by
  refine .current_bind fun tok hgood _ ↦ ?_
  have hname := @parseName_yields _ _ _ _ htakes hpe tok hm hn
  split
  · rename_i hty
    exact .before (hgood.int hty)
  · rename_i hty
    exact .before (hgood.float hty)
  · exact .before trivial
  · exact .before trivial
  · refine .after (eat_safe (by decide)) fun _ ↦ ?_
    refine .bind (htakes.le (by omega)).safe (hpe.mono (by omega) (fun _ h ↦ h) fun _ h ↦ h)
      fun e he ↦ ?_
    exact .before he
  · rename_i hty
    exact hname (by rw [hty]; decide) (.inl (hgood.name hty))
  · rename_i hty
    exact hname (by rw [hty]; decide) (.inr (.inr (hgood.value_eq (by rw [hty]; rfl))))
  · rename_i hty
    exact hname (by rw [hty]; decide) (.inr (.inl (hgood.value_eq (by rw [hty]; rfl))))
  · exact .fail _

theorem postfixRound_yields (hm : n ≤ m + 1) (hn : n ≤ fuel) {expr : Expr} (hexpr : Written expr) :
    Yields n (postfixRound pe fuel expr) fun r ↦ Written r.state := by
  have hargs : ∀ {l}, l ≤ n → Yields l (parseArgs pe fuel) AllWritten :=
    fun hl ↦ parseArgs_yields htakes hpe (by omega) (by omega)
  -- a name after a dot, and perhaps a call
  have hname : ∀ {l} {f : Token → P (Round Expr)},
      (∀ name : Token, IsName name.value → Yields (l - 1) (f name) fun r ↦ Written r.state) →
      Yields l (eat .ident >>= f) fun r ↦ Written r.state := by
    intro l f hf
    exact .bind (eat_safe (by decide)) eat_yields fun name hident ↦ hf name (hident.1.name hident.2)
  refine ifAt_yields ?_ (ifAtThen_yields ?_ ?_)
  · refine .after (eat_safe (by decide)) fun _ ↦ hname fun name hident ↦ ifAt_yields ?_ ?_
    · refine .bind_pure ((hargs (by omega)).imp fun args hargs ↦ ?_)
      exact ⟨hexpr, hident, hargs⟩
    · exact .pure ⟨hexpr, hident⟩
  · refine .after (eat_safe (by decide)) fun _ ↦ .after (eat_safe (by decide)) fun _ ↦ ?_
    refine hname fun name hident ↦ ifAt_yields ?_ ?_
    · refine .bind_pure ((hargs (by omega)).imp fun args hargs ↦ ?_)
      exact ⟨hexpr, hident, hargs⟩
    · exact .pure ⟨hexpr, hident, trivial⟩
  · exact ifAt_yields (.bind_pure ((hargs le_rfl).imp fun args hargs ↦ ⟨hexpr, hargs⟩))
      (.pure hexpr)

theorem parsePostfix_yields (hm : n ≤ m + 1) (hn : n ≤ fuel) :
    Yields n (parsePostfix pe fuel) Written := by
  refine .bind (parsePrimary_takes htakes hm hn).safe (parsePrimary_yields htakes hpe hm hn)
    fun expr hexpr ↦ ?_
  exact .loop (postfixRound_safe htakes (by omega) (by omega))
    (fun b hb ↦ postfixRound_yields htakes hpe (by omega) (by omega) hb) fuel hexpr

theorem parseUnary_yields (hm : n ≤ m + 1) (hn : n ≤ fuel) {depth : ℕ} (hdepth : n ≤ depth) :
    Yields n (parseUnary pe fuel depth) Written := by
  induction depth generalizing n with
  | zero =>
    obtain rfl := Nat.le_zero.mp hdepth
    exact .zero
  | succ depth ih =>
    have hinner : Yields (n - 1) (parseUnary pe fuel depth) Written :=
      ih (by omega) (by omega) (by omega)
    refine .current_bind fun tok hgood _ ↦ .ite (fun hop ↦ ?_) fun _ ↦ ifAt_yields ?_ ?_
    · have heof : tok.ty ≠ .eof := by
        rcases hop with hty | hty <;> rw [hty] <;> decide
      refine .bind (eatCur_at heof) eatCur_yields fun t ht ↦ .bind_pure (hinner.imp fun e he ↦ ?_)
      rcases hop with hty | hty
      · exact ⟨.inl (ht ▸ hgood.value_eq (by rw [hty]; rfl)), he⟩
      · exact ⟨.inr (.inl (ht ▸ hgood.value_eq (by rw [hty]; rfl))), he⟩
    · refine .after (eat_safe (by decide)) fun _ ↦ .bind_pure (hinner.imp fun e he ↦ ?_)
      exact ⟨.inr (.inr rfl), he⟩
    · exact parsePostfix_yields htakes hpe hm hn

end Expr

theorem operatorChain_yields {isOp : TokenType → Bool} {op : Token → String} {operand : P Expr}
    (hop : isOp .eof = false)
    (hbinary : ∀ t, WellWritten t → isOp t.ty = true → (binaryTy (op t)).isSome)
    (htakes : Takes n operand 1) (hoperand : Yields n operand Written) :
    Yields n (operatorChain fuel isOp op operand) Written := by
  refine .bind htakes.safe hoperand fun left hleft ↦ .loop
    (chainRound_safe hop (htakes.le (Nat.sub_le n 1))) (fun left hleft ↦ ?_) fuel hleft
  rw [bind_assoc]
  refine .current_bind fun tok hgood _ ↦ ?_
  rw [pure_bind]
  refine .ite (fun hcur ↦ .bind_pure ?_) fun _ ↦ .pure hleft
  have heof : tok.ty ≠ .eof := by
    intro heof
    rw [heof, hop] at hcur
    cases hcur
  refine .bind (eatCur_at heof) eatCur_yields fun t ht ↦ .bind_pure ?_
  exact hoperand.mono (by omega) (fun _ h ↦ h) fun right hright ↦
    ⟨ht ▸ hbinary tok hgood hcur, hleft, hright⟩

theorem isSome_binaryTy {t : Token} (h : WellWritten t)
    (hty : ∃ op ∈ fixedText t.ty, (binaryTy op).isSome) : (binaryTy t.value).isSome := by
  obtain ⟨op, hop, hbinary⟩ := hty
  rw [h.value_eq hop]
  exact hbinary

section Ladder

variable (htakes : Takes m pe 1) (hpe : Yields m pe Written)

include htakes hpe

theorem parseMul_yields (hm : n ≤ m + 1) (hn : n ≤ fuel) :
    Yields n (parseMul pe fuel) Written := by
  refine operatorChain_yields rfl (fun t h hop ↦ isSome_binaryTy h ?_)
    (parseUnary_takes htakes hm hn hn) (parseUnary_yields htakes hpe hm hn hn)
  rcases of_decide_eq_true hop with hty | hty | hty <;>
  · rw [hty]
    exact ⟨_, rfl, rfl⟩

theorem parseAdd_yields (hm : n ≤ m + 1) (hn : n ≤ fuel) :
    Yields n (parseAdd pe fuel) Written := by
  refine operatorChain_yields rfl (fun t h hop ↦ isSome_binaryTy h ?_)
    (parseMul_takes htakes hm hn) (parseMul_yields htakes hpe hm hn)
  rcases of_decide_eq_true hop with hty | hty <;>
  · rw [hty]
    exact ⟨_, rfl, rfl⟩

theorem parseIs_yields (hm : n ≤ m + 1) (hn : n ≤ fuel) :
    Yields n (parseIs pe fuel) Written := by
  refine .bind (parseAdd_takes htakes hm hn).safe (parseAdd_yields htakes hpe hm hn)
    fun left hleft ↦ .whileLoop ?_ (fun left ↦ ?_) (fun left hleft ↦ ?_) fuel hleft
  · exact ifAt_takes (Safe.current_bind fun t _ ↦ Safe.pure _) (Consumes.pure _)
  · exact .bind (eat_takes (by decide)) fun _ ↦
      (eat_takes (by decide)).bind_pure.mono le_rfl (Nat.zero_le 1)
  · refine .after (eat_safe (by decide)) fun _ ↦ .bind_pure (eat_yields.imp fun t ht ↦ ?_)
    exact ⟨hleft, ht.1.name ht.2⟩

theorem parseCmp_yields (hm : n ≤ m + 1) (hn : n ≤ fuel) :
    Yields n (parseCmp pe fuel) Written := by
  refine operatorChain_yields rfl (fun t h hop ↦ isSome_binaryTy h ?_)
    (parseIs_takes htakes hm hn) (parseIs_yields htakes hpe hm hn)
  rcases of_decide_eq_true hop with hty | hty | hty | hty <;>
  · rw [hty]
    exact ⟨_, rfl, rfl⟩

theorem parseEq_yields (hm : n ≤ m + 1) (hn : n ≤ fuel) :
    Yields n (parseEq pe fuel) Written := by
  refine operatorChain_yields rfl (fun t h hop ↦ isSome_binaryTy h ?_)
    (parseCmp_takes htakes hm hn) (parseCmp_yields htakes hpe hm hn)
  rcases of_decide_eq_true hop with hty | hty <;>
  · rw [hty]
    exact ⟨_, rfl, rfl⟩

theorem parseAnd_yields (hm : n ≤ m + 1) (hn : n ≤ fuel) :
    Yields n (parseAnd pe fuel) Written :=
  operatorChain_yields rfl (fun _ _ _ ↦ rfl) (parseEq_takes htakes hm hn)
    (parseEq_yields htakes hpe hm hn)

theorem parseOr_yields (hm : n ≤ m + 1) (hn : n ≤ fuel) :
    Yields n (parseOr pe fuel) Written :=
  operatorChain_yields rfl (fun _ _ _ ↦ rfl) (parseAnd_takes htakes hm hn)
    (parseAnd_yields htakes hpe hm hn)

theorem parseElvis_yields (hm : n ≤ m + 1) (hn : n ≤ fuel) :
    Yields n (parseElvis pe fuel) Written := by
  have hor : ∀ {l}, l ≤ n → Yields l (parseOr pe fuel) Written :=
    fun hl ↦ parseOr_yields htakes hpe (by omega) (by omega)
  refine .bind (parseOr_takes htakes hm hn).safe (hor le_rfl)
    fun left hleft ↦ .whileLoop ?_ (fun left ↦ ?_) (fun left hleft ↦ ?_) fuel hleft
  · exact ifAtThen_takes (Consumes.pure _) (Consumes.pure _)
  · refine .bind (eat_takes (by decide)) fun _ ↦ .bind (eat_takes (by decide)) fun _ ↦ ?_
    exact ((parseOr_takes htakes (by omega) (by omega)).mono le_rfl (Nat.zero_le 1)).bind_pure
  · refine .after (eat_safe (by decide)) fun _ ↦ .after (eat_safe (by decide)) fun _ ↦ ?_
    exact .bind_pure ((hor (by omega)).imp fun right hright ↦ ⟨hleft, hright⟩)

end Ladder

/-- **What the parser makes of tokens of the lexer.** -/
theorem parseExpr_yields (hn : n ≤ fuel) : Yields n (parseExpr fuel) Written := by
  induction fuel generalizing n with
  | zero =>
    obtain rfl := Nat.le_zero.mp hn
    exact .zero
  | succ fuel ih => exact parseElvis_yields (parseExpr_takes le_rfl) (ih le_rfl) hn hn

end Agex

end Zeroxos
