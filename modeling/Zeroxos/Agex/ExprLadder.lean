import Zeroxos.Agex.ExprTokens
import Zeroxos.Library.CursorRuns

/-!
# The levels of binary operators

The parser of agex has a function for each level of binary operators, which calls the one for the
next tighter level. What such a function has read is what the next one has read, unless an operator
of its own level follows. `ladder` numbers the functions, and an operand climbs from the level of
unary operators as far as the next token allows.
-/

namespace Zeroxos

namespace Agex

open Parse

/-- In front of tokens of the kinds `l` the parser answers `a` and leaves tokens of the kinds `l'`.
-/
abbrev Parses {α : Type} (p : P α) (l : List Kind) (a : α) (l' : List Kind) : Prop :=
  Reads Token.kind p l a l'

variable {α β : Type} {p q : P α} {a : α} {b : β} {k k' : Kind} {l l' l'' l₁ l₂ : List Kind}
  {ty : TokenType} {value : String}

/-! ## The cursor -/

theorem isAt_bind_eq {f : Bool → P β} (h : Parses (f (k.1 = ty)) (k :: l) b l') :
    Parses (isAt ty >>= f) (k :: l) b l' := by
  rw [isAt, bind_assoc]
  refine Reads.current_bind fun _ ht ↦ ?_
  subst ht
  exact h

theorem ifAt_true (hp : Parses p ((ty, value) :: l) a l') :
    Parses (ifAt ty p q) ((ty, value) :: l) a l' :=
  isAt_bind_eq (by rw [decide_eq_true rfl]; exact hp)

theorem ifAt_false (hne : k.1 ≠ ty) (hq : Parses q (k :: l) a l') :
    Parses (ifAt ty p q) (k :: l) a l' :=
  isAt_bind_eq (by rw [decide_eq_false hne]; exact hq)

theorem ifAtThen_false {next : TokenType} (hne : k.1 ≠ ty) (hq : Parses q (k :: l) a l') :
    Parses (ifAtThen ty next p q) (k :: l) a l' :=
  isAt_bind_eq (by rw [decide_eq_false hne]; exact hq)

/-- The first token is as it should be, and the second decides. -/
theorem ifAtThen_next {next : TokenType}
    (h : Parses (if k.1 = next then p else q) ((ty, value) :: k :: l) a l') :
    Parses (ifAtThen ty next p q) ((ty, value) :: k :: l) a l' := by
  refine isAt_bind_eq ?_
  rw [decide_eq_true rfl, if_pos rfl]
  refine Reads.next_bind fun t ht ↦ ?_
  subst ht
  exact h

theorem eat_bind {f : Token → P β}
    (hf : ∀ t, t.kind = (ty, value) → Parses (f t) l b l') :
    Parses (eat ty >>= f) ((ty, value) :: l) b l' := by
  rw [eat, bind_assoc]
  refine isAt_bind_eq ?_
  rw [decide_eq_true rfl, if_pos rfl, bind_assoc]
  refine Reads.current_bind fun t ht ↦ ?_
  rw [bind_assoc]
  exact Reads.advance.bind (hf t ht)

theorem eat_then {q : P β} (hq : Parses q l b l') :
    Parses (eat ty >>= fun _ ↦ q) ((ty, value) :: l) b l' := eat_bind fun _ _ ↦ hq

theorem eatCur_bind {f : Token → P β} (hf : ∀ t, t.kind = k → Parses (f t) l b l') :
    Parses (eatCur >>= f) (k :: l) b l' := by
  rw [eatCur, bind_assoc]
  refine Reads.current_bind fun t ht ↦ ?_
  subst ht
  exact eat_bind hf

theorem maybe_true : Parses (do return (← maybe ty).isSome) ((ty, value) :: l) true l := by
  rw [maybe, bind_assoc]
  refine isAt_bind_eq ?_
  rw [decide_eq_true rfl, if_pos rfl, bind_assoc]
  refine Reads.current_bind fun t _ ↦ ?_
  rw [bind_assoc]
  exact Reads.advance.bind (Reads.pure true l)

theorem maybe_false (hne : k.1 ≠ ty) :
    Parses (do return (← maybe ty).isSome) (k :: l) false (k :: l) := by
  rw [maybe, bind_assoc]
  refine isAt_bind_eq ?_
  rw [decide_eq_false hne]
  exact Reads.pure false _

/-! ## Levels -/

section Ladder

variable (pe : P Expr) (fuel : ℕ)

/-- The parsers of expressions, from unary operators to the loosest binary operators. -/
def ladder : ℕ → P Expr
  | 0 => parseUnary pe fuel fuel
  | 1 => parseMul pe fuel
  | 2 => parseAdd pe fuel
  | 3 => parseIs pe fuel
  | 4 => parseCmp pe fuel
  | 5 => parseEq pe fuel
  | 6 => parseAnd pe fuel
  | 7 => parseOr pe fuel
  | _ => parseElvis pe fuel

/-- The level whose loop a token keeps going. -/
def opLevel : TokenType → ℕ
  | .star | .slash | .percent => 1
  | .plus | .minus => 2
  | .ident => 3
  | .lt | .le | .gt | .ge => 4
  | .eq | .neq => 5
  | .and => 6
  | .or => 7
  | .question => 8
  | _ => 0

/-- The operator of a chain, as the parser notes it. -/
def chainOp : ℕ → Token → String
  | 6 => fun _ ↦ "&&"
  | 7 => fun _ ↦ "||"
  | _ => Token.value

variable {pe fuel} {i j : ℕ} {e left right : Expr} {isOp : TokenType → Bool} {op : Token → String}
  {operand : P Expr}

theorem chain_congr {n : ℕ} (h : ∀ ty, isOp ty = decide (opLevel ty = n)) :
    operatorChain fuel isOp op operand
      = operatorChain fuel (fun ty ↦ opLevel ty = n) op operand := by
  rw [funext h]

/-- All levels but two are chains of operators. -/
theorem ladder_succ (hi : i < 7) (his : i ≠ 2) : ladder pe fuel (i + 1)
    = operatorChain fuel (fun ty ↦ opLevel ty = i + 1) (chainOp (i + 1)) (ladder pe fuel i) := by
  match i, hi with
  | 2, _ => exact absurd rfl his
  | 0, _ | 1, _ | 3, _ | 4, _ | 5, _ | 6, _ =>
    simp only [ladder, chainOp, parseMul, parseAdd, parseCmp, parseEq, parseAnd, parseOr]
    refine chain_congr fun ty ↦ ?_
    cases ty <;> rfl

theorem isOp_parses {more : Bool} (h : isOp k.1 = more) :
    Parses (do return isOp (← cur).ty) (k :: l) more (k :: l) :=
  Reads.current_bind fun t ht ↦ by
    subst ht h
    exact Reads.pure _ _

theorem chain_pass (h : Parses operand l e (k :: l')) (hop : isOp k.1 = false) :
    Parses (operatorChain (fuel + 1) isOp op operand) l e (k :: l') :=
  h.bind (Reads.while_exit (isOp_parses hop))

theorem chain_step (hleft : Parses operand l left (k :: l₁)) (hop : isOp k.1 = true)
    (hvalue : ∀ t : Token, t.kind = k → op t = value)
    (hright : Parses operand l₁ right (k' :: l₂)) (hstop : isOp k'.1 = false) :
    Parses (operatorChain (fuel + 2) isOp op operand) l (.binary value left right) (k' :: l₂) := by
  refine hleft.bind (Reads.while_again (isOp_parses hop) (eatCur_bind fun t ht ↦ ?_)
    (Reads.while_exit (isOp_parses hstop)))
  rw [← hvalue t ht]
  exact hright.bind_pure

theorem ladder_pass (h : Parses (ladder pe (fuel + 1) i) l e (k :: l')) (hi : i < 8)
    (hk : opLevel k.1 ≠ i + 1) : Parses (ladder pe (fuel + 1) (i + 1)) l e (k :: l') := by
  by_cases his : i = 2
  · subst his
    refine h.bind (Reads.while_exit (ifAt_false (fun hident ↦ ?_) (Reads.pure false _)))
    rw [hident] at hk
    exact hk rfl
  by_cases helvis : i = 7
  · subst helvis
    refine h.bind (Reads.while_exit (ifAtThen_false (fun hquestion ↦ ?_) (Reads.pure false _)))
    rw [hquestion] at hk
    exact hk rfl
  rw [ladder_succ (by omega) his]
  exact chain_pass h (decide_eq_false hk)

theorem ladder_up (hij : i ≤ j) (hj : j ≤ 8) (h : Parses (ladder pe (fuel + 1) i) l e (k :: l'))
    (hk : ∀ m, i < m → m ≤ j → opLevel k.1 ≠ m) :
    Parses (ladder pe (fuel + 1) j) l e (k :: l') := by
  induction j, hij using Nat.le_induction with
  | base => exact h
  | succ j hij ih =>
    have hbelow := ih (by omega) fun m hm hmj ↦ hk m hm (by omega)
    exact ladder_pass hbelow (by omega) (hk (j + 1) (by omega) le_rfl)

/-- A binary operator belongs to a chain, which notes it as it is written. -/
theorem exists_level (hty : binaryTy value = some ty) : ∃ i < 7, i ≠ 2 ∧ opLevel ty = i + 1 ∧
    ∀ t : Token, t.kind = (ty, value) → chainOp (i + 1) t = value := by
  have hvalue : ∀ t : Token, t.kind = (ty, value) → t.value = value :=
    fun t ht ↦ congrArg Prod.snd ht
  unfold binaryTy at hty
  split at hty <;> cases hty
  · exact ⟨0, by decide, by decide, rfl, hvalue⟩
  · exact ⟨0, by decide, by decide, rfl, hvalue⟩
  · exact ⟨0, by decide, by decide, rfl, hvalue⟩
  · exact ⟨1, by decide, by decide, rfl, hvalue⟩
  · exact ⟨1, by decide, by decide, rfl, hvalue⟩
  · exact ⟨3, by decide, by decide, rfl, hvalue⟩
  · exact ⟨3, by decide, by decide, rfl, hvalue⟩
  · exact ⟨3, by decide, by decide, rfl, hvalue⟩
  · exact ⟨3, by decide, by decide, rfl, hvalue⟩
  · exact ⟨4, by decide, by decide, rfl, hvalue⟩
  · exact ⟨4, by decide, by decide, rfl, hvalue⟩
  · exact ⟨5, by decide, by decide, rfl, fun _ _ ↦ rfl⟩
  · exact ⟨6, by decide, by decide, rfl, fun _ _ ↦ rfl⟩

/-- **A binary operator** is read at its level, with operands at the level of unary operators. -/
theorem ladder_binary (hty : binaryTy value = some ty)
    (hleft : Parses (ladder pe (fuel + 2) 0) l left ((ty, value) :: l₁))
    (hright : Parses (ladder pe (fuel + 2) 0) l₁ right (k' :: l₂)) (hk' : opLevel k'.1 = 0) :
    Parses (ladder pe (fuel + 2) 8) l (.binary value left right) (k' :: l₂) := by
  obtain ⟨i, hi, his, hlevel, hvalue⟩ := exists_level hty
  have hstop : ∀ m, 0 < m → opLevel k'.1 ≠ m := fun m hm ↦ hk' ▸ hm.ne
  have hleft' : Parses (ladder pe (fuel + 2) i) l left ((ty, value) :: l₁) :=
    ladder_up (Nat.zero_le i) (by omega) hleft fun m _ hm ↦ by
      rw [hlevel]
      exact (Nat.lt_succ_of_le hm).ne'
  have hright' : Parses (ladder pe (fuel + 2) i) l₁ right (k' :: l₂) :=
    ladder_up (Nat.zero_le i) (by omega) hright fun m hm _ ↦ hstop m hm
  have hbinary : Parses (ladder pe (fuel + 2) (i + 1)) l (.binary value left right)
      (k' :: l₂) := by
    rw [ladder_succ hi his]
    exact chain_step hleft' (decide_eq_true hlevel) hvalue hright'
      (decide_eq_false (hstop _ (Nat.succ_pos i)))
  exact ladder_up (by omega) le_rfl hbinary fun m hm _ ↦ hstop m (Nat.zero_lt_of_lt hm)

end Ladder

end Agex

end Zeroxos
