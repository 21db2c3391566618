import Zeroxos.Agex.ExprReads
import Zeroxos.Library.InfixTree

/-!
# Precedence

A sequence of operands with binary operators between them, the operands being literals, names and
sequences in parentheses, is read as the one tree of its operands and operators that is grouped by
the levels of the operators, all of them going to the left (`precedence`).

## Two descriptions

What the tree is, is said without the parser, by `LeftGrouped`, and there is exactly one such tree
for a row. The parser makes it by functions that call each other, one for each level.

## The proof

It climbs the levels: at each of them the loop of the parser goes once for every operator of the
level on the left edge of the tree (`edge`). A row ends at the end of the input or at a closing
parenthesis, which is the induction over nested sequences.
-/

namespace Zeroxos

namespace Agex

open Parse

/-! ## Sequences -/

/-- The binary operators, `?:` among them. -/
inductive InfixOp
  | mul | div | rem | add | sub | lt | le | gt | ge | eq | ne | and | or | elvis
deriving DecidableEq

/-- The first token of an operator. -/
def InfixOp.token : InfixOp → Kind
  | mul => (.star, "*")
  | div => (.slash, "/")
  | rem => (.percent, "%")
  | add => (.plus, "+")
  | sub => (.minus, "-")
  | lt => (.lt, "<")
  | le => (.le, "<=")
  | gt => (.gt, ">")
  | ge => (.ge, ">=")
  | eq => (.eq, "==")
  | ne => (.neq, "!=")
  | and => (.and, "&&")
  | or => (.or, "||")
  | elvis => (.question, "?")

/-- The tokens of an operator. -/
def InfixOp.kinds (op : InfixOp) : List Kind :=
  op.token :: if op = .elvis then [(.colon, ":")] else []

/-- The level of an operator, the tightest the lowest; 3 is that of `is`. -/
def InfixOp.level : InfixOp → ℕ
  | mul | div | rem => 1
  | add | sub => 2
  | lt | le | gt | ge => 4
  | eq | ne => 5
  | and => 6
  | or => 7
  | elvis => 8

/-- An operator between two expressions. -/
def InfixOp.expr (op : InfixOp) (left right : Expr) : Expr :=
  if op = .elvis then .elvis left right else .binary op.token.2 left right

/-- A literal or a name. -/
inductive Atom
  | int (value : String)
  | float (value : String)
  | string (value : String)
  | char (value : String)
  | name (value : String)

/-- The token of a literal or a name. -/
def Atom.kind : Atom → Kind
  | int value => (.intLiteral, value)
  | float value => (.floatLiteral, value)
  | string value => (.stringLiteral, value)
  | char value => (.charLiteral, value)
  | name value => (.ident, value)

/-- Some names are those of values. -/
def nameExpr (value : String) : Expr :=
  if value = "true" ∨ value = "false" then .bool (value = "true")
  else if value = "null" then .null
  else if value = "this" then .this
  else .ident value

/-- The expression of a literal or a name. -/
def Atom.expr : Atom → Expr
  | int value => .int value
  | float value => .float value
  | string value => .string value
  | char value => .string value
  | name value => nameExpr value

mutual

/-- A literal, a name, or a sequence in parentheses. -/
inductive Operand
  | atom (a : Atom)
  | paren (s : Sequence)

/-- Operands with operators between them. -/
inductive Sequence
  | one (a : Operand)
  | snoc (s : Sequence) (op : InfixOp) (a : Operand)

end

mutual

/-- The tokens of an operand. -/
def Operand.kinds : Operand → List Kind
  | .atom a => [a.kind]
  | .paren s => (.lParen, "(") :: (s.kinds ++ [(.rParen, ")")])

/-- The tokens of a sequence. -/
def Sequence.kinds : Sequence → List Kind
  | .one a => a.kinds
  | .snoc s op a => s.kinds ++ op.kinds ++ a.kinds

end

mutual

/-- The expression of an operand: parentheses make one expression of a sequence. -/
def Operand.expr : Operand → Expr
  | .atom a => a.expr
  | .paren s => s.exprTree.eval id InfixOp.expr

/-- The tree of a sequence, its operands replaced by their expressions. -/
def Sequence.exprTree : Sequence → InfixTree InfixOp Expr
  | .one a => .leaf a.expr
  | .snoc s op a => s.exprTree.push InfixOp.level op a.expr

end

/-- The operand that comes first. -/
def Sequence.first : Sequence → Operand
  | .one a => a
  | .snoc s _ _ => s.first

/-- The operators, in their order, each with the operand behind it. -/
def Sequence.rest : Sequence → List (InfixOp × Operand)
  | .one _ => []
  | .snoc s op a => s.rest ++ [(op, a)]

/-- The tree of a sequence. -/
def Sequence.tree : Sequence → InfixTree InfixOp Operand
  | .one a => .leaf a
  | .snoc s op a => s.tree.push InfixOp.level op a

/-- A tree has the operands and operators of the sequence, in their order, and is grouped by the
levels of the operators. -/
structure IsTreeOf (s : Sequence) (t : InfixTree InfixOp Operand) : Prop where
  first : t.first = s.first
  rest : t.rest = s.rest
  grouped : t.LeftGrouped InfixOp.level

/-- The expression of a tree. -/
def treeExpr (t : InfixTree InfixOp Operand) : Expr := t.eval Operand.expr InfixOp.expr

theorem IsTreeOf.unique {s : Sequence} {t t' : InfixTree InfixOp Operand} (h : IsTreeOf s t)
    (h' : IsTreeOf s t') : t' = t :=
  h'.grouped.unique h.grouped (h'.first.trans h.first.symm) (h'.rest.trans h.rest.symm)

theorem Sequence.isTreeOf : (s : Sequence) → IsTreeOf s s.tree
  | .one _ => ⟨rfl, rfl, trivial⟩
  | .snoc s op a => by
    have h := s.isTreeOf
    refine ⟨?_, ?_, ?_⟩
    · rw [tree, InfixTree.first_push, h.first, first]
    · rw [tree, InfixTree.rest_push, h.rest, Sequence.rest]
    · exact h.grouped.push

theorem Sequence.exprTree_eq : (s : Sequence) → s.exprTree = s.tree.map Operand.expr
  | .one a => by rw [exprTree, tree, InfixTree.map]
  | .snoc s op a => by rw [exprTree, tree, InfixTree.map_push, s.exprTree_eq]

theorem Operand.expr_paren (s : Sequence) : (Operand.paren s).expr = treeExpr s.tree := by
  rw [expr, s.exprTree_eq, InfixTree.eval_map]
  rfl

/-- The tokens of a tree. -/
def treeKinds : InfixTree InfixOp Operand → List Kind
  | .leaf a => a.kinds
  | .node op left right => treeKinds left ++ (op.kinds ++ treeKinds right)

theorem treeKinds_push (t : InfixTree InfixOp Operand) (op : InfixOp) (a : Operand) :
    treeKinds (t.push InfixOp.level op a) = treeKinds t ++ op.kinds ++ a.kinds := by
  induction t with
  | leaf b => exact (List.append_assoc _ _ _).symm
  | node op' left right _ ih =>
    rw [InfixTree.push]
    split_ifs
    · exact (List.append_assoc _ _ _).symm
    · rw [treeKinds, ih, treeKinds]
      simp only [List.append_assoc]

theorem Sequence.kinds_eq : (s : Sequence) → s.kinds = treeKinds s.tree
  | .one a => by rw [kinds, tree, treeKinds]
  | .snoc s op a => by rw [kinds, tree, treeKinds_push, s.kinds_eq]

/-! ## What follows -/

/-- What follows an operand at a level: a looser operator, or the end of the sequence. -/
inductive MayFollow (n : ℕ) : List Kind → Prop
  | op {op : InfixOp} (l : List Kind) (h : n < op.level) : MayFollow n (op.kinds ++ l)
  | close {k : Kind} (l : List Kind) (h : k.1 = .rParen ∨ k.1 = .eof) : MayFollow n (k :: l)

variable {n m fuel : ℕ} {pe : P Expr} {k : Kind} {l l' : List Kind} {e : Expr}

theorem InfixOp.opLevel_token (op : InfixOp) : opLevel op.token.1 = op.level := by
  cases op <;> rfl

theorem InfixOp.level_pos (op : InfixOp) : 0 < op.level := by
  cases op <;> decide

theorem MayFollow.mono (h : MayFollow n l) (hle : m ≤ n) : MayFollow m l := by
  cases h with
  | op l h => exact .op l (hle.trans_lt h)
  | close l h => exact .close l h

/-- No loop of the level or a lower one goes on, and no arguments follow. -/
theorem MayFollow.exists_cons (h : MayFollow n l) : ∃ k l', l = k :: l' ∧ k.1 ≠ .lParen ∧
    ∀ i, 0 < i → i ≤ n → opLevel k.1 ≠ i := by
  cases h with
  | @op op l h =>
    refine ⟨op.token, _, rfl, by cases op <;> decide, fun i _ hi ↦ ?_⟩
    rw [op.opLevel_token]
    omega
  | @close k l h =>
    have hends : k.1 ≠ .lParen ∧ opLevel k.1 = 0 := by
      rcases h with h | h <;> rw [h] <;> decide
    exact ⟨k, l, rfl, hends.1, fun i hi _ ↦ hends.2 ▸ hi.ne⟩

theorem round_mayFollow (h : MayFollow 0 l) : Parses (postfixRound pe fuel e) l (.exit e) l := by
  cases h with
  | @op op l h =>
    cases op with
    | elvis =>
      -- the question mark is not that of a safe call
      refine ifAt_false (by decide) (ifAtThen_next ?_)
      rw [if_neg (by decide)]
      exact ifAt_false (by decide) (Reads.pure _ _)
    | _ => exact round_exit ⟨by decide, by decide, by decide⟩
  | @close k l h =>
    refine round_exit ?_
    rw [EndsPostfix]
    rcases h with h | h <;> rw [h] <;> decide

/-! ## Operands -/

/-- The expression is read as an operand. -/
def ReadsOperand (a : Operand) : Prop :=
  ∀ fuel, a.kinds.length ≤ fuel + 1 → ∀ l, MayFollow 0 l →
    Parses (ladder (parseExpr fuel) (fuel + 1) 0) (a.kinds ++ l) a.expr l

theorem primary_string {value : String} :
    Parses (parsePrimary pe fuel) ((.stringLiteral, value) :: l) (.string value) l :=
  Reads.current_bind fun t ht ↦ by
    obtain ⟨ty, text, line, col⟩ := t
    cases ht
    dsimp only
    exact eat_then (Reads.pure _ l)

theorem primary_char {value : String} :
    Parses (parsePrimary pe fuel) ((.charLiteral, value) :: l) (.string value) l :=
  Reads.current_bind fun t ht ↦ by
    obtain ⟨ty, text, line, col⟩ := t
    cases ht
    dsimp only
    exact eat_then (Reads.pure _ l)

theorem named_parses {name : String} (hk : k.1 ≠ .lParen) :
    Parses (parseNamed pe fuel false name) (k :: l) (nameExpr name) (k :: l) := by
  rw [parseNamed, nameExpr]
  split_ifs
  · exact Reads.pure _ _
  · exact Reads.pure _ _
  · exact Reads.pure _ _
  · contradiction
  · refine isAt_bind_eq ?_
    rw [decide_eq_false hk, Bool.false_and]
    exact Reads.pure _ _

theorem primary_atom (a : Atom) (h : MayFollow 0 l) :
    Parses (parsePrimary pe fuel) (a.kind :: l) a.expr l := by
  cases a with
  | int value => exact primary_int
  | float value => exact primary_float
  | string value => exact primary_string
  | char value => exact primary_char
  | name value =>
    obtain ⟨k, l', rfl, hk, -⟩ := h.exists_cons
    exact primary_name (named_parses hk)

theorem operand_of_primary (hk : k.1 ≠ .not ∧ k.1 ≠ .minus ∧ k.1 ≠ .amp)
    (h : Parses (parsePrimary pe (fuel + 1)) (k :: l') e l) (hl : MayFollow 0 l) :
    Parses (ladder pe (fuel + 1) 0) (k :: l') e l := by
  have hpostfix : Parses (parsePostfix pe (fuel + 1)) (k :: l') e l :=
    h.bind (Reads.loop_exit (round_mayFollow hl))
  refine Reads.current_bind fun t ht ↦ ?_
  have hty : t.ty = k.1 := congrArg Prod.fst ht
  rw [hty, if_neg (not_or.mpr ⟨hk.1, hk.2.1⟩)]
  exact ifAt_false hk.2.2 hpostfix

/-! ## Levels -/

/-- A level is a loop around the one below, which goes on exactly at the operators of the level. -/
structure LevelLoop (pe : P Expr) (fuel n : ℕ) (cond : P Bool) (body : Expr → P Expr) : Prop where
  eq : ladder pe fuel (n + 1) = ladder pe fuel n >>= whileLoop cond body fuel
  enter : ∀ op : InfixOp, op.level = n + 1 → ∀ l,
    Parses cond (op.kinds ++ l) true (op.kinds ++ l)
  round : ∀ op : InfixOp, op.level = n + 1 → ∀ left right l l',
    Parses (ladder pe fuel n) l right l' →
    Parses (body left) (op.kinds ++ l) (op.expr left right) l'
  leave : ∀ k l, opLevel k.1 ≠ n + 1 → Parses cond (k :: l) false (k :: l)

theorem levelLoop_is (pe : P Expr) (fuel : ℕ) :
    ∃ cond body, LevelLoop pe fuel 2 cond body := by
  refine ⟨_, _, rfl, fun op hop ↦ ?_, fun op hop ↦ ?_, fun k l hk ↦ ?_⟩
  · exact absurd hop (by cases op <;> decide)
  · exact absurd hop (by cases op <;> decide)
  · refine ifAt_false (fun hident ↦ ?_) (Reads.pure false _)
    rw [hident] at hk
    exact hk rfl

theorem eq_elvis {op : InfixOp} (h : op.level = 8) : op = .elvis := by
  cases op with
  | elvis => rfl
  | _ => exact absurd h (by decide)

theorem levelLoop_elvis (pe : P Expr) (fuel : ℕ) :
    ∃ cond body, LevelLoop pe fuel 7 cond body := by
  refine ⟨_, _, rfl, fun op hop l ↦ ?_, fun op hop left right l l' h ↦ ?_, fun k l hk ↦ ?_⟩
  · obtain rfl := eq_elvis hop
    refine ifAtThen_next ?_
    rw [if_pos rfl]
    exact Reads.pure true _
  · obtain rfl := eq_elvis hop
    exact eat_then (eat_then h.bind_pure)
  · refine ifAtThen_false (fun hquestion ↦ ?_) (Reads.pure false _)
    rw [hquestion] at hk
    exact hk rfl

theorem chainOp_token {op : InfixOp} {t : Token} (ht : t.kind = op.token) (h : op ≠ .elvis) :
    chainOp op.level t = op.token.2 := by
  have hvalue : t.value = op.token.2 := congrArg Prod.snd ht
  cases op with
  | elvis => exact absurd rfl h
  | and => rfl
  | or => rfl
  | _ => exact hvalue

theorem exists_levelLoop (pe : P Expr) (fuel : ℕ) (hn : n < 8) :
    ∃ cond body, LevelLoop pe fuel n cond body := by
  by_cases his : n = 2
  · subst his
    exact levelLoop_is pe fuel
  by_cases helvis : n = 7
  · subst helvis
    exact levelLoop_elvis pe fuel
  have hcond : ∀ (k : Kind) (l : List Kind), Parses (do return decide (opLevel (← cur).ty = n + 1))
      (k :: l) (decide (opLevel k.1 = n + 1)) (k :: l) := fun k l ↦
    Reads.current_bind fun t ht ↦ by
      subst ht
      exact Reads.pure _ _
  refine ⟨_, fun left ↦ do
    let tok ← eatCur
    return .binary (chainOp (n + 1) tok) left (← ladder pe fuel n),
    ladder_succ (by omega) his, fun op hop l ↦ ?_, fun op hop left right l l' h ↦ ?_,
    fun k l hk ↦ ?_⟩
  · have hop' : opLevel op.token.1 = n + 1 := op.opLevel_token.trans hop
    have henter := hcond op.token ((if op = .elvis then [(.colon, ":")] else []) ++ l)
    rwa [decide_eq_true hop'] at henter
  · have hne : op ≠ .elvis := by
      rintro rfl
      exact helvis (Nat.succ_injective hop).symm
    rw [InfixOp.kinds, InfixOp.expr, if_neg hne, if_neg hne]
    refine eatCur_bind fun t ht ↦ ?_
    rw [← hop, chainOp_token ht hne]
    exact h.bind_pure
  · have hleave := hcond k l
    rwa [decide_eq_false hk] at hleave

/-! ## Trees -/

theorem Operand.kinds_length_pos (a : Operand) : 0 < a.kinds.length := by
  cases a with
  | atom a => exact Nat.one_pos
  | paren s =>
    rw [kinds]
    exact Nat.succ_pos _

/-- The operators of a level on the left edge of a tree, from the root on. -/
def edge (n : ℕ) : InfixTree InfixOp Operand → ℕ
  | .leaf _ => 0
  | .node op left _ => if op.level = n then edge n left + 1 else 0

theorem edge_lt (n : ℕ) (t : InfixTree InfixOp Operand) : edge n t < (treeKinds t).length := by
  induction t with
  | leaf a => exact a.kinds_length_pos
  | node op left right ih _ =>
    rw [edge, treeKinds, List.length_append, List.length_append, InfixOp.kinds, List.length_cons]
    split_ifs <;> omega

/-- A tree that is read at a level. -/
structure Fits (fuel n : ℕ) (t : InfixTree InfixOp Operand) : Prop where
  grouped : t.LeftGrouped InfixOp.level
  root : t.Root (InfixOp.level · ≤ n)
  operands : t.All ReadsOperand
  length : (treeKinds t).length ≤ fuel + 1

/-- The trees of a level are read at it. -/
def ReadsLevel (fuel n : ℕ) : Prop :=
  ∀ t, Fits fuel n t → ∀ l, MayFollow n l →
    Parses (ladder (parseExpr fuel) (fuel + 1) n) (treeKinds t ++ l) (treeExpr t) l

theorem ReadsLevel.loop {cond : P Bool} {body : Expr → P Expr}
    (h : LevelLoop (parseExpr fuel) (fuel + 1) n cond body) (hbelow : ReadsLevel fuel n)
    {t : InfixTree InfixOp Operand} (ht : Fits fuel (n + 1) t) {r : Expr} (hl : MayFollow n l)
    (hrest : Parses (whileLoop cond body m (treeExpr t)) l r l') :
    Parses (ladder (parseExpr fuel) (fuel + 1) n >>= whileLoop cond body (m + edge (n + 1) t))
      (treeKinds t ++ l) r l' := by
  induction t generalizing m l with
  | leaf a => exact (hbelow (.leaf a) ⟨trivial, trivial, ht.operands, ht.length⟩ l hl).bind hrest
  | node op left right ih _ =>
    have hlength := ht.length
    rw [treeKinds, List.length_append, List.length_append] at hlength
    by_cases hop : op.level = n + 1
    · -- a round of the loop, behind those for the left operand
      have hright : Fits fuel n right := ⟨ht.grouped.2.2, ht.grouped.1.2.imp fun _ hlt ↦
        Nat.le_of_lt_succ (hlt.trans_eq hop), ht.operands.2, by omega⟩
      have hleft : Fits fuel (n + 1) left := ⟨ht.grouped.2.1, ht.grouped.1.1.imp fun _ hle ↦
        hle.trans_eq hop, ht.operands.1, by omega⟩
      have hround := h.round op hop (treeExpr left) (treeExpr right) _ _ (hbelow right hright l hl)
      have hmore := ih hleft (.op (treeKinds right ++ l) (by omega))
        (Reads.while_again (h.enter op hop _) hround hrest)
      rw [edge, if_pos hop, treeKinds, List.append_assoc, List.append_assoc,
        show m + (edge (n + 1) left + 1) = m + 1 + edge (n + 1) left by omega]
      exact hmore
    · have hlower : op.level ≤ n := by
        have hroot : op.level ≤ n + 1 := ht.root
        omega
      rw [edge, if_neg hop]
      exact (hbelow _ ⟨ht.grouped, hlower, ht.operands, ht.length⟩ l hl).bind hrest

/-- **One level.** What is read below it is read at it, and so are its own trees. -/
theorem ReadsLevel.succ (hn : n < 8) (h : ReadsLevel fuel n) : ReadsLevel fuel (n + 1) := by
  intro t ht l hl
  obtain ⟨cond, body, hloop⟩ := exists_levelLoop (parseExpr fuel) (fuel + 1) hn
  obtain ⟨k, l', rfl, -, hk⟩ := hl.exists_cons
  have hedge := edge_lt (n + 1) t
  have hlength := ht.length
  -- the loop has rounds left to see that the level has ended
  obtain ⟨m, hm⟩ : ∃ m, fuel + 1 = m + 1 + edge (n + 1) t := ⟨fuel - edge (n + 1) t, by omega⟩
  have hexit : Parses (whileLoop cond body (m + 1) (treeExpr t)) (k :: l') (treeExpr t) (k :: l') :=
    Reads.while_exit (hloop.leave k l' (hk (n + 1) n.succ_pos le_rfl))
  have hread := ReadsLevel.loop hloop h ht (hl.mono n.le_succ) hexit
  rw [hloop.eq]
  rwa [← hm] at hread

theorem ReadsLevel.zero (fuel : ℕ) : ReadsLevel fuel 0 := by
  intro t ht l hl
  cases t with
  | leaf a => exact ht.operands fuel ht.length l hl
  | node op left right => exact absurd op.level_pos (not_lt.mpr ht.root)

theorem readsLevel (fuel : ℕ) (hn : n ≤ 8) : ReadsLevel fuel n := by
  induction n with
  | zero => exact .zero fuel
  | succ n ih => exact (ih (by omega)).succ hn

/-! ## Sequences -/

theorem Sequence.kinds_length_pos (s : Sequence) : 0 < s.kinds.length := by
  cases s with
  | one a =>
    rw [kinds]
    exact a.kinds_length_pos
  | snoc s op a =>
    rw [kinds, List.length_append]
    exact Nat.add_pos_right _ a.kinds_length_pos

/-- A sequence whose operands are read is read as its tree. -/
theorem sequence_parses {s : Sequence} (hs : s.tree.All ReadsOperand)
    (hfuel : s.kinds.length ≤ fuel) (hk : k.1 = .rParen ∨ k.1 = .eof) :
    Parses (parseExpr fuel) (s.kinds ++ k :: l) (treeExpr s.tree) (k :: l) := by
  have hpos := s.kinds_length_pos
  obtain ⟨fuel, rfl⟩ : ∃ n, fuel = n + 1 := ⟨fuel - 1, by omega⟩
  rw [s.kinds_eq] at hfuel ⊢
  refine readsLevel fuel le_rfl s.tree ⟨s.isTreeOf.grouped, ?_, hs, hfuel⟩ _ (.close l hk)
  cases s.tree with
  | leaf a => trivial
  | node op left right =>
    have hlevel : op.level ≤ 8 := by cases op <;> decide
    exact hlevel

mutual

/-- **Operands**, in particular sequences in parentheses, are read as they are. -/
theorem reads_operand : (a : Operand) → ReadsOperand a
  | .atom a => by
    intro fuel _ l hl
    rw [Operand.kinds, Operand.expr]
    refine operand_of_primary ?_ (primary_atom a hl) hl
    cases a <;> exact ⟨TokenType.noConfusion, TokenType.noConfusion, TokenType.noConfusion⟩
  | .paren s => by
    have hs := reads_operands s
    intro fuel hlength l hl
    rw [Operand.kinds, List.length_cons, List.length_append] at hlength
    rw [Operand.kinds, Operand.expr_paren s, List.cons_append, List.append_assoc]
    have hinner : Parses (parseExpr fuel) (s.kinds ++ (.rParen, ")") :: l) (treeExpr s.tree)
        ((.rParen, ")") :: l) := sequence_parses hs (by omega) (.inl rfl)
    exact operand_of_primary ⟨by decide, by decide, by decide⟩ (primary_paren hinner) hl

theorem reads_operands : (s : Sequence) → s.tree.All ReadsOperand
  | .one a => reads_operand a
  | .snoc s _ a => (reads_operands s).push (reads_operand a)

end

/-- **Precedence.** A sequence in front of the end of the file is read with nothing left, as the one
tree of its operands and operators that is grouped by their levels. In parentheses it is an operand
with the expression of that tree. -/
theorem precedence (s : Sequence) {fuel : ℕ} (hfuel : s.kinds.length ≤ fuel) (eof : String) :
    ∃ t, (IsTreeOf s t ∧ ∀ t', IsTreeOf s t' → t' = t) ∧
      Parses (parseExpr fuel) (s.kinds ++ [(.eof, eof)]) (treeExpr t) [(.eof, eof)] ∧
      (Operand.paren s).expr = treeExpr t :=
  ⟨s.tree, ⟨s.isTreeOf, fun _ h ↦ s.isTreeOf.unique h⟩,
    sequence_parses (reads_operands s) hfuel (.inr rfl), Operand.expr_paren s⟩

/-- `a - b - (1 + c) * 2` -/
def mixedSequence : Sequence :=
  .snoc (.snoc (.snoc (.one (.atom (.name "a"))) .sub (.atom (.name "b"))) .sub
    (.paren (.snoc (.one (.atom (.int "1"))) .add (.atom (.name "c"))))) .mul (.atom (.int "2"))

theorem precedence_mixedSequence :
    Parses (parseExpr 11) (mixedSequence.kinds ++ [(.eof, "")])
      (.binary "-" (.binary "-" (.ident "a") (.ident "b"))
        (.binary "*" (.binary "+" (.int "1") (.ident "c")) (.int "2"))) [(.eof, "")] := by
  have hfuel : mixedSequence.kinds.length ≤ 11 := by decide
  obtain ⟨t, ⟨-, hunique⟩, hparse, -⟩ := precedence mixedSequence hfuel ""
  rw [← hunique mixedSequence.tree mixedSequence.isTreeOf] at hparse
  exact hparse

end Agex

end Zeroxos
