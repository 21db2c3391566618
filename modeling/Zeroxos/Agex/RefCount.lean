import Zeroxos.Agex.Lexemes
import Zeroxos.Agex.ParserTotal
import Zeroxos.Library.CursorRuns

/-!
# References that are parsed

The parser of agex makes a reference only when it eats an ampersand. Of an expression that it
returns the references are therefore no more than the ampersands among the tokens that it has
passed, whatever the tokens are.
-/

namespace Zeroxos

namespace Agex

open Parse

mutual

/-- The references in an expression. -/
def refCount : Expr → ℕ
  | .binary _ left right => refCount left + refCount right
  | .unary op operand => refCount operand + if op = "&" then 1 else 0
  | .call callee args => refCount callee + refCounts args
  | .method recv _ args => refCount recv + refCounts args
  | .field recv _ => refCount recv
  | .safeCall recv _ args => refCount recv + refCounts args
  | .elvis left right => refCount left + refCount right
  | .new _ args => refCounts args
  | .cast expr _ => refCount expr
  | _ => 0

/-- `refCount` of all together. -/
def refCounts : List Expr → ℕ
  | [] => 0
  | e :: l => refCount e + refCounts l

end

/-- Whether a token can make a reference. -/
def ampCost (k : Kind) : ℕ := if k.1 = .amp ∨ k.2 = "&" then 1 else 0

/-- With `k` in hand the parser makes no more references than that and the ampersands that it
passes. -/
abbrev Makes {α : Type} (k : ℕ) (p : P α) (w : α → ℕ) : Prop :=
  Pays (fun t : Token ↦ ampCost t.kind) k p w

variable {α β : Type} {k : ℕ} {ty next : TokenType} {p q : P α} {w : α → ℕ}

/-! ## The cursor -/

theorem cur_makes : Makes k cur fun _ ↦ k := Pays.current

theorem isAt_makes : Makes k (isAt ty) fun _ ↦ k := cur_makes.bind fun _ ↦ Pays.pure le_rfl

theorem ifAt_makes (hp : Makes k p w) (hq : Makes k q w) : Makes k (ifAt ty p q) w :=
  isAt_makes.bind fun b ↦ by
    split_ifs
    · exact hp
    · exact hq

theorem ifAtThen_makes (hp : Makes k p w) (hq : Makes k q w) : Makes k (ifAtThen ty next p q) w :=
  ifAt_makes ((Pays.lookahead 1).bind fun _ ↦ by
    split_ifs
    · exact hp
    · exact hq) hq

theorem eat_makes_cost : Makes k (eat ty) fun t ↦ k + ampCost t.kind :=
  Pays.of_pass fun _ t _ hrun ↦ by
    obtain ⟨hget, -, htoks, hpos⟩ := eat_ok hrun
    exact ⟨t, hget, htoks, hpos, le_rfl⟩

theorem eat_makes : Makes k (eat ty) fun _ ↦ k :=
  eat_makes_cost.mono le_rfl fun _ ↦ Nat.le_add_right _ _

theorem eatAmp_makes : Makes k (eat .amp) fun _ ↦ k + 1 :=
  Pays.of_pass fun _ t _ hrun ↦ by
    obtain ⟨hget, hty, htoks, hpos⟩ := eat_ok hrun
    have hcost : ampCost t.kind = 1 := if_pos (.inl hty)
    exact ⟨t, hget, htoks, hpos, by rw [hcost]⟩

theorem eatCur_makes : Makes k eatCur fun t ↦ k + ampCost t.kind :=
  cur_makes.bind fun _ ↦ eat_makes_cost

theorem maybe_makes : Makes k (maybe ty) fun _ ↦ k :=
  isAt_makes.bind fun b ↦ by
    split_ifs
    · exact cur_makes.bind fun _ ↦ Pays.advance.bind fun _ ↦ Pays.pure le_rfl
    · exact Pays.pure le_rfl

/-! ## Expressions -/

/-- The parser of expressions makes no more references than it has ampersands for. -/
def MakesExpr (p : P Expr) : Prop := ∀ k, Makes k p fun e ↦ k + refCount e

section Expr

variable {pe : P Expr} {fuel depth : ℕ}

theorem refCounts_append (args : List Expr) (e : Expr) :
    refCounts (args ++ [e]) = refCounts args + refCount e := by
  induction args with
  | nil => exact Nat.add_comm _ _
  | cons a args ih => rw [List.cons_append, refCounts, ih, refCounts, Nat.add_assoc]

theorem items_makes {close : TokenType} (h : MakesExpr pe) :
    Makes k (items close pe fuel) fun args ↦ k + refCounts args := by
  have hone : ∀ e, k + refCount e = k + refCounts [e] := fun e ↦ rfl
  refine ifAt_makes (Pays.pure le_rfl) ((h k).bind fun e ↦ ?_)
  rw [hone]
  refine Pays.whileLoop (v := fun args ↦ k + refCounts args) (fun k ↦ ?_) (fun out ↦ ?_) fuel [e]
  · exact maybe_makes.bind fun _ ↦ Pays.pure le_rfl
  · refine (h _).bind fun e ↦ Pays.pure ?_
    rw [refCounts_append, Nat.add_assoc]

theorem parseArgs_makes (h : MakesExpr pe) :
    Makes k (parseArgs pe fuel) fun args ↦ k + refCounts args :=
  eat_makes.bind fun _ ↦ (items_makes h).bind fun _ ↦ eat_makes.bind fun _ ↦ Pays.pure le_rfl

theorem parseNamed_makes (h : MakesExpr pe) (isPrint : Bool) (value : String) :
    Makes k (parseNamed pe fuel isPrint value) fun e ↦ k + refCount e := by
  rw [parseNamed]
  split_ifs
  · exact Pays.pure le_rfl
  · exact Pays.pure le_rfl
  · exact Pays.pure le_rfl
  · refine isAt_makes.bind fun _ ↦ ?_
    split_ifs
    · exact (parseArgs_makes h).bind fun _ ↦ Pays.pure le_rfl
    · refine ifAt_makes ((parseArgs_makes h).bind fun args ↦ Pays.pure ?_) (Pays.pure le_rfl)
      have hident : refCount (.ident "println") = 0 := rfl
      rw [refCount, hident, Nat.zero_add]
  · refine isAt_makes.bind fun _ ↦ ?_
    split_ifs
    · exact (parseArgs_makes h).bind fun _ ↦ Pays.pure le_rfl
    · exact Pays.pure le_rfl

theorem parseName_makes (h : MakesExpr pe) (tok : Token) :
    Makes k (parseName pe fuel tok) fun e ↦ k + refCount e :=
  isAt_makes.bind fun isPrint ↦
    (eatCur_makes.mono le_rfl fun _ ↦ Nat.le_add_right _ _).bind fun _ ↦
      parseNamed_makes h isPrint tok.value

theorem parsePrimary_makes (h : MakesExpr pe) :
    Makes k (parsePrimary pe fuel) fun e ↦ k + refCount e := by
  refine cur_makes.bind fun tok ↦ ?_
  split
  · exact eat_makes.bind fun _ ↦ Pays.pure le_rfl
  · exact eat_makes.bind fun _ ↦ Pays.pure le_rfl
  · exact eat_makes.bind fun _ ↦ Pays.pure le_rfl
  · exact eat_makes.bind fun _ ↦ Pays.pure le_rfl
  · exact eat_makes.bind fun _ ↦ (h k).bind fun _ ↦ eat_makes.bind fun _ ↦ Pays.pure le_rfl
  · exact parseName_makes h tok
  · exact parseName_makes h tok
  · exact parseName_makes h tok
  · exact Pays.fail _

theorem postfixRound_makes (h : MakesExpr pe) (expr : Expr) :
    Makes (k + refCount expr) (postfixRound pe fuel expr) fun r ↦ k + refCount r.state := by
  have hcall : Makes (k + refCount expr)
      (ifAt .lParen (return Round.again (.call expr (← parseArgs pe fuel)))
        (return Round.exit expr)) fun r ↦ k + refCount r.state := by
    refine ifAt_makes ((parseArgs_makes h).bind fun args ↦ Pays.pure ?_) (Pays.pure le_rfl)
    rw [Nat.add_assoc]
    exact le_rfl
  refine ifAt_makes (eat_makes.bind fun _ ↦ eat_makes.bind fun name ↦ ?_)
    (ifAtThen_makes (eat_makes.bind fun _ ↦ eat_makes.bind fun _ ↦ eat_makes.bind fun name ↦ ?_)
      hcall)
  · refine ifAt_makes ((parseArgs_makes h).bind fun args ↦ Pays.pure ?_) (Pays.pure le_rfl)
    rw [Nat.add_assoc]
    exact le_rfl
  · refine ifAt_makes ((parseArgs_makes h).bind fun args ↦ Pays.pure ?_) (Pays.pure le_rfl)
    rw [Nat.add_assoc]
    exact le_rfl

theorem parsePostfix_makes (h : MakesExpr pe) :
    Makes k (parsePostfix pe fuel) fun e ↦ k + refCount e :=
  (parsePrimary_makes h).bind fun e ↦ Pays.loop (postfixRound_makes h) fuel e

/-- An operator that is written as an ampersand has cost one. -/
theorem refCount_unary (t : Token) (operand : Expr) :
    refCount (.unary t.value operand) ≤ refCount operand + ampCost t.kind := by
  rw [refCount, ampCost]
  split_ifs with hvalue hkind
  · exact le_rfl
  · exact absurd (.inr hvalue) hkind
  · exact Nat.le_succ _
  · exact le_rfl

theorem parseUnary_makes (h : MakesExpr pe) : MakesExpr (parseUnary pe fuel depth) := by
  induction depth with
  | zero => exact fun k ↦ Pays.outOfFuel
  | succ depth ih =>
    intro k
    refine cur_makes.bind fun t ↦ ?_
    dsimp only
    split_ifs
    · refine eatCur_makes.bind fun t ↦ (ih _).bind fun operand ↦ Pays.pure ?_
      have hle := refCount_unary t operand
      omega
    · refine ifAt_makes (eatAmp_makes.bind fun _ ↦ (ih _).bind fun operand ↦ Pays.pure ?_)
        (parsePostfix_makes h)
      rw [refCount, if_pos rfl]
      omega

theorem operatorChain_makes {isOp : TokenType → Bool} {op : Token → String} {operand : P Expr}
    (h : MakesExpr operand) : MakesExpr (operatorChain fuel isOp op operand) := by
  refine fun k ↦ (h k).bind fun left ↦ Pays.whileLoop (v := fun e ↦ k + refCount e) (fun k ↦ ?_)
    (fun left ↦ ?_) fuel left
  · exact cur_makes.bind fun _ ↦ Pays.pure le_rfl
  · refine (eatCur_makes.mono le_rfl fun _ ↦ Nat.le_add_right _ _).bind fun t ↦
      (h _).bind fun right ↦ Pays.pure ?_
    rw [refCount, Nat.add_assoc]

theorem parseIs_makes (h : MakesExpr (parseAdd pe fuel)) : MakesExpr (parseIs pe fuel) := by
  refine fun k ↦ (h k).bind fun left ↦ Pays.whileLoop (v := fun e ↦ k + refCount e) (fun k ↦ ?_)
    (fun left ↦ ?_) fuel left
  · exact ifAt_makes (cur_makes.bind fun _ ↦ Pays.pure le_rfl) (Pays.pure le_rfl)
  · exact eat_makes.bind fun _ ↦ eat_makes.bind fun _ ↦ Pays.pure le_rfl

theorem parseElvis_makes (h : MakesExpr (parseOr pe fuel)) : MakesExpr (parseElvis pe fuel) := by
  refine fun k ↦ (h k).bind fun left ↦ Pays.whileLoop (v := fun e ↦ k + refCount e) (fun k ↦ ?_)
    (fun left ↦ ?_) fuel left
  · exact ifAtThen_makes (Pays.pure le_rfl) (Pays.pure le_rfl)
  · refine eat_makes.bind fun _ ↦ eat_makes.bind fun _ ↦ (h _).bind fun right ↦ Pays.pure ?_
    rw [refCount, Nat.add_assoc]

end Expr

/-- **Expressions have no more references than there are ampersands.** -/
theorem parseExpr_makes (fuel : ℕ) : MakesExpr (parseExpr fuel) := by
  induction fuel with
  | zero => exact fun k ↦ Pays.outOfFuel
  | succ fuel ih =>
    have hadd : MakesExpr (parseAdd (parseExpr fuel) (fuel + 1)) :=
      operatorChain_makes (operatorChain_makes (parseUnary_makes ih))
    have hcmp : MakesExpr (parseCmp (parseExpr fuel) (fuel + 1)) :=
      operatorChain_makes (parseIs_makes hadd)
    exact parseElvis_makes (operatorChain_makes (operatorChain_makes (operatorChain_makes hcmp)))

end Agex

end Zeroxos
