import Zeroxos.Agex.Lexemes
import Zeroxos.Agex.Parser

/-!
# The tokens of an emitted expression

The expressions in question are made of numbers, `true` and `false`, names, operators, calls and
fields. The text of one begins with ampersands, two of which are read as one token, and goes on with
something that is not an ampersand. `kinds` is what the lexer of agex makes of the text.
-/

namespace Zeroxos

namespace Agex

/-! ## The expressions -/

/-- The token of a binary operator. -/
def binaryTy : String → Option TokenType
  | "*" => some .star | "/" => some .slash | "%" => some .percent
  | "+" => some .plus | "-" => some .minus
  | "<" => some .lt | "<=" => some .le | ">" => some .gt | ">=" => some .ge
  | "==" => some .eq | "!=" => some .neq | "&&" => some .and | "||" => some .or
  | _ => none

/-- A reference. -/
def Expr.isRef : Expr → Bool
  | .unary op _ => op = "&"
  | _ => false

/-- A field access. -/
def Expr.isField : Expr → Bool
  | .field _ _ => true
  | _ => false

/-- A lower-case name which is neither a value nor a builtin. -/
structure PlainIdent (name : String) : Prop extends IsName name where
  lower : startsUppercase name = false
  other : name ∉ ["true", "false", "null", "this", "range", "print", "println"]

/-- The name of a method or a field which is written as it is. -/
structure PlainMember (name : String) : Prop extends IsName name where
  other : name ∉ ["uppercase", "lowercase", "length", "len"]

mutual

/-- The expressions in question. -/
def Plain : Expr → Prop
  | .int value => IsInt value
  | .float value => IsFloat value
  | .bool _ => True
  | .ident name => PlainIdent name
  | .binary op left right => (binaryTy op).isSome ∧ Plain left ∧ Plain right
  | .unary op operand => (op = "!" ∨ op = "-" ∨ op = "&" ∧ operand.isRef = false) ∧ Plain operand
  | .call callee args => Plain callee ∧ Plains args
  | .method recv name args => Plain recv ∧ PlainMember name ∧ Plains args
  | .field recv name => Plain recv ∧ PlainMember name
  | _ => False

/-- `Plain` of each. -/
def Plains : List Expr → Prop
  | [] => True
  | e :: l => Plain e ∧ Plains l

end

/-! ## Their tokens -/

/-- The ampersands that the text of an expression begins with. -/
def amps : Expr → ℕ
  | .unary op operand => if op = "&" then amps operand + 1 else 0
  | .call callee _ => amps callee
  | .method recv _ _ => amps recv
  | .field recv _ => amps recv
  | _ => 0

/-- What is read for so many ampersands. -/
def ampKinds : ℕ → List Kind
  | 0 => []
  | 1 => [(.amp, "&")]
  | k + 2 => (.and, "&&") :: ampKinds k

/-- The token of a binary operator. -/
def binaryKind (op : String) : Kind := ((binaryTy op).getD .eof, op)

/-- The token of `!` or `-`. -/
def unaryKind (op : String) : Kind := (if op = "!" then .not else .minus, op)

mutual

/-- What is read for an expression behind its ampersands. -/
def bodyKinds : Expr → List Kind
  | .int value => [(.intLiteral, value)]
  | .float value => [(.floatLiteral, value)]
  | .bool value => [(.ident, if value then "true" else "false")]
  | .ident name => [(.ident, name)]
  | .binary op left right =>
    (.lParen, "(") :: (ampKinds (amps left) ++ bodyKinds left) ++ binaryKind op ::
      (ampKinds (amps right) ++ bodyKinds right) ++ [(.rParen, ")")]
  | .unary op operand =>
    if op = "&" then bodyKinds operand
    else (.lParen, "(") :: unaryKind op :: (ampKinds (amps operand) ++ bodyKinds operand)
      ++ [(.rParen, ")")]
  | .call callee args => bodyKinds callee ++ (.lParen, "(") :: argKinds args ++ [(.rParen, ")")]
  | .method recv name args =>
    bodyKinds recv ++ (.dot, ".") :: (.ident, name) :: (.lParen, "(") :: argKinds args
      ++ [(.rParen, ")")]
  | .field recv name => bodyKinds recv ++ [(.dot, "."), (.ident, name)]
  | _ => []

/-- What is read for arguments. -/
def argKinds : List Expr → List Kind
  | [] => []
  | e :: l => ampKinds (amps e) ++ bodyKinds e ++ moreKinds l

/-- What is read for more arguments. -/
def moreKinds : List Expr → List Kind
  | [] => []
  | e :: l => (.comma, ",") :: (ampKinds (amps e) ++ bodyKinds e) ++ moreKinds l

end

/-- What is read for an expression. -/
def kinds (e : Expr) : List Kind := ampKinds (amps e) ++ bodyKinds e

/-! ## Their texts -/

variable {cs rest : List Char} {ks : List Kind} {ty : TokenType}

/-- The scope without fields and sealed classes. -/
abbrev noScope : Scope := ⟨[], []⟩

/-- How an expression begins behind its ampersands. -/
def OpensText (cs : List Char) : Prop := ∃ c ∈ cs.head?, isIdentChar c = true ∨ c = '('

/-- The text of an expression is made of ampersands and something that is read as its tokens. -/
def ReadAsKinds (e : Expr) : Prop :=
  ∃ body, (genExpr noScope e).toList = List.replicate (amps e) '&' ++ body ∧ OpensText body ∧
    ∀ rest, EndsText rest → Lexes body (bodyKinds e) rest

theorem OpensText.append (h : OpensText cs) (cs' : List Char) : OpensText (cs ++ cs') := by
  obtain ⟨c, hc, hopens⟩ := h
  exact ⟨c, by rw [List.head?_append, hc]; rfl, hopens⟩

theorem lexes_amps (k : ℕ) (hopens : OpensText cs) (h : Lexes cs ks rest) :
    Lexes (List.replicate k '&' ++ cs) (ampKinds k ++ ks) rest := by
  match k with
  | 0 => exact h
  | 1 =>
    obtain ⟨c, hc, hopens⟩ := hopens
    have hne : c ≠ '&' := by
      rintro rfl
      exact absurd hopens (by decide)
    have hhead : ∀ d ∈ (cs ++ rest).head?, twoTy ['&', d] = none := by
      intro d hd
      rw [List.head?_append, hc] at hd
      cases hd
      exact twoTy_amp hne
    exact Lexes.cons (lexes_one rfl hhead (fun heq ↦ absurd heq (by decide))
      fun heq ↦ absurd heq (by decide)) h
  | k + 2 => exact (lexes_two rfl).append (lexes_amps k hopens h)

theorem lexes_binary {op : String} (h : binaryTy op = some ty) :
    Lexes op.toList [(ty, op)] (' ' :: rest) := by
  have hspace : ∀ {c}, twoTy [c, ' '] = none → ∀ d ∈ (' ' :: rest).head?, twoTy [c, d] = none := by
    rintro c hnone d hd
    cases hd
    exact hnone
  have hone : ∀ {c : Char} {ty : TokenType}, oneTy c = some ty → twoTy [c, ' '] = none →
      Lexes [c] [(ty, c.toString)] (' ' :: rest) := by
    intro c ty hty htwo
    refine lexes_one hty (hspace htwo) ?_ ?_
    · rintro - d hd
      cases hd
      decide
    · rintro - d hd
      cases hd
      decide
  unfold binaryTy at h
  split at h <;> cases h
  · exact hone rfl rfl
  · exact hone rfl rfl
  · exact hone rfl rfl
  · exact hone rfl rfl
  · exact hone rfl rfl
  · exact hone rfl rfl
  · exact lexes_two rfl
  · exact hone rfl rfl
  · exact lexes_two rfl
  · exact lexes_two rfl
  · exact lexes_two rfl
  · exact lexes_two rfl
  · exact lexes_two rfl

theorem lexes_unary {op : String} (hop : op = "!" ∨ op = "-")
    (hrest : ∃ c ∈ rest.head?, c = '&' ∨ isIdentChar c = true ∨ c = '(') :
    Lexes op.toList [unaryKind op] rest := by
  obtain ⟨d, hd, hopens⟩ := hrest
  have hne : d ≠ '=' ∧ d ≠ '>' := by
    constructor <;> rintro rfl <;> exact absurd hopens (by decide)
  rcases hop with rfl | rfl
  · refine lexes_one rfl (fun e he ↦ ?_) (fun h ↦ absurd h (by decide))
      fun h ↦ absurd h (by decide)
    obtain rfl : d = e := Option.some.inj (hd.symm.trans he)
    exact twoTy_not hne.1
  · refine lexes_one rfl (fun e he ↦ ?_) (fun h ↦ absurd h (by decide))
      fun h ↦ absurd h (by decide)
    obtain rfl : d = e := Option.some.inj (hd.symm.trans he)
    exact twoTy_minus hne

namespace ReadAsKinds

variable {e left right : Expr} {op name value : String} {args : List Expr}

theorem lexes (h : ReadAsKinds e) (hrest : EndsText rest) :
    Lexes (genExpr noScope e).toList (kinds e) rest := by
  obtain ⟨body, htext, hopens, hlexes⟩ := h
  rw [htext]
  exact lexes_amps (amps e) hopens (hlexes rest hrest)

theorem head (h : ReadAsKinds e) (rest : List Char) :
    ∃ c ∈ ((genExpr noScope e).toList ++ rest).head?, c = '&' ∨ isIdentChar c = true ∨ c = '(' := by
  obtain ⟨body, htext, hopens, -⟩ := h
  rw [htext]
  cases hamps : amps e with
  | zero =>
    obtain ⟨c, hc, hopens⟩ := hopens.append rest
    exact ⟨c, hc, .inr hopens⟩
  | succ n => exact ⟨'&', rfl, .inl rfl⟩

theorem of_token (hamps : amps e = 0)
    (h : ∃ c ∈ (genExpr noScope e).toList.head?, isIdentChar c = true)
    (hlexes : ∀ rest, EndsText rest → Lexes (genExpr noScope e).toList (bodyKinds e) rest) :
    ReadAsKinds e := by
  obtain ⟨c, hc, hident⟩ := h
  exact ⟨_, by rw [hamps]; rfl, ⟨c, hc, .inl hident⟩, hlexes⟩

theorem head_number (h : ∃ d ∈ value.toList.head?, isAsciiDigit d = true) :
    ∃ c ∈ value.toList.head?, isIdentChar c = true := by
  obtain ⟨d, hd, hdigit⟩ := h
  exact ⟨d, hd, isIdentChar_of_digit (by rw [isDigitOrUnderscore, hdigit]; rfl)⟩

theorem int (h : IsInt value) : ReadAsKinds (.int value) := by
  have hlexes : ∀ rest, EndsText rest → Lexes value.toList _ rest := fun rest ↦ lexes_int h
  obtain ⟨whole, suffix, hvalue, hdigit, -⟩ := h
  exact of_token rfl (head_number (hvalue ▸ head_append_of_mem hdigit)) hlexes

theorem float (h : IsFloat value) : ReadAsKinds (.float value) := by
  have hlexes : ∀ rest, EndsText rest → Lexes value.toList _ rest := fun rest ↦ lexes_float h
  obtain ⟨whole, fraction, suffix, hvalue, hdigit, -⟩ := h
  rw [List.append_assoc] at hvalue
  exact of_token rfl (head_number (hvalue ▸ head_append_of_mem hdigit)) hlexes

theorem head_name (h : IsName name) : ∃ c ∈ name.toList.head?, isIdentChar c = true := by
  obtain ⟨c, hc, -⟩ := h.first
  exact ⟨c, hc, h.chars c (List.mem_of_mem_head? hc)⟩

theorem bool (b : Bool) : ReadAsKinds (.bool b) := by
  have hname : IsName (if b then "true" else "false") := by
    cases b
    · exact ⟨⟨'f', rfl, rfl⟩, List.all_eq_true.mp rfl, by decide⟩
    · exact ⟨⟨'t', rfl, rfl⟩, List.all_eq_true.mp rfl, by decide⟩
  exact of_token rfl (head_name hname) fun rest hrest ↦ lexes_name hname hrest.1

theorem genExpr_ident (name : String) : genExpr noScope (.ident name) = name := by
  rw [genExpr]
  rfl

theorem ident (h : IsName name) : ReadAsKinds (.ident name) := by
  refine of_token rfl ?_ fun rest hrest ↦ ?_
  · rw [genExpr_ident]
    exact head_name h
  · rw [genExpr_ident]
    exact lexes_name h hrest.1

theorem binary (hop : (binaryTy op).isSome)
    (hstring : left.isString = false ∧ right.isString = false)
    (hleft : ReadAsKinds left) (hright : ReadAsKinds right) :
    ReadAsKinds (.binary op left right) := by
  obtain ⟨ty, hty⟩ := Option.isSome_iff_exists.mp hop
  have hkind : binaryKind op = (ty, op) := by
    rw [binaryKind, hty]
    rfl
  have htext : (genExpr noScope (.binary op left right)).toList
      = '(' :: ((genExpr noScope left).toList ++ ' ' :: (op.toList ++
        ' ' :: ((genExpr noScope right).toList ++ [')']))) := by
    rw [genExpr, if_neg]
    · simp only [String.toList_append, List.append_assoc]
      rfl
    · rintro ⟨-, h⟩
      rw [hstring.1, hstring.2] at h
      exact h.elim Bool.false_ne_true Bool.false_ne_true
  refine ⟨_, htext, ⟨'(', rfl, .inr rfl⟩, fun rest _ ↦ ?_⟩
  have hkinds : bodyKinds (.binary op left right) = [(.lParen, "(")] ++ (kinds left ++ ([] ++
      ([(ty, op)] ++ ([] ++ (kinds right ++ [(.rParen, ")")]))))) := by
    rw [bodyKinds, hkind]
    simp only [kinds, List.append_assoc, List.cons_append, List.nil_append]
  rw [hkinds]
  refine Lexes.cons lexes_paren (.append (hleft.lexes ?_) (.cons lexes_space (.append ?_
    (.cons lexes_space (.append (hright.lexes ?_) lexes_close)))))
  · exact endsText_cons (by decide) (by decide) _
  · exact lexes_binary hty
  · exact endsText_cons (by decide) (by decide) _

theorem ref (hop : op = "&") (h : ReadAsKinds e) : ReadAsKinds (.unary op e) := by
  obtain ⟨body, htext, hopens, hlexes⟩ := h
  refine ⟨body, ?_, hopens, fun rest hrest ↦ ?_⟩
  · rw [genExpr, if_pos hop, String.toList_append, htext, amps, if_pos hop]
    rfl
  · rw [bodyKinds, if_pos hop]
    exact hlexes rest hrest

theorem unary (hop : op = "!" ∨ op = "-") (h : ReadAsKinds e) : ReadAsKinds (.unary op e) := by
  have hne : op ≠ "&" := by
    rcases hop with rfl | rfl <;> decide
  have htext : (genExpr noScope (.unary op e)).toList
      = '(' :: (op.toList ++ ((genExpr noScope e).toList ++ [')'])) := by
    rw [genExpr, if_neg hne]
    simp only [String.toList_append, List.append_assoc]
    rfl
  refine ⟨_, by rw [amps, if_neg hne]; exact htext, ⟨'(', rfl, .inr rfl⟩, fun rest _ ↦ ?_⟩
  have hkinds : bodyKinds (.unary op e) = [(.lParen, "(")] ++ ([unaryKind op] ++
      (kinds e ++ [(.rParen, ")")])) := by
    rw [bodyKinds, if_neg hne]
    simp only [kinds, List.append_assoc, List.cons_append, List.nil_append]
  rw [hkinds]
  refine Lexes.cons lexes_paren (.append ?_ (.append (h.lexes ?_) lexes_close))
  · rw [List.append_assoc]
    exact lexes_unary hop (h.head _)
  · exact endsText_cons (by decide) (by decide) _

theorem lexes_args (h : ∀ e ∈ args, ReadAsKinds e) (rest : List Char) :
    Lexes (join ", " (genExprs noScope args)).toList (argKinds args) (')' :: rest) := by
  induction args with
  | nil => exact .nil
  | cons e args ih =>
    obtain ⟨he, hargs⟩ := List.forall_mem_cons.mp h
    cases args with
    | nil =>
      rw [argKinds, moreKinds, List.append_nil]
      exact he.lexes (endsText_cons (by decide) (by decide) _)
    | cons e' args =>
      have htext : (join ", " (genExprs noScope (e :: e' :: args))).toList
          = (genExpr noScope e).toList ++ ',' :: ' ' ::
            (join ", " (genExprs noScope (e' :: args))).toList := by
        rw [genExprs, genExprs, join, String.toList_append, String.toList_append, List.append_assoc]
        rfl
      have hkinds : argKinds (e :: e' :: args)
          = kinds e ++ ([(.comma, ",")] ++ ([] ++ argKinds (e' :: args))) := by
        rw [argKinds, moreKinds, argKinds, kinds]
        simp only [List.append_assoc, List.cons_append, List.nil_append]
      rw [htext, hkinds]
      refine .append (he.lexes ?_) (.cons lexes_comma (.cons lexes_space (ih hargs)))
      exact endsText_cons (by decide) (by decide) _

theorem call (hcallee : e.ident? ≠ some "range" ∧ e.ident? ≠ some "println")
    (h : ReadAsKinds e) (hargs : ∀ e ∈ args, ReadAsKinds e) : ReadAsKinds (.call e args) := by
  obtain ⟨body, htext, hopens, hlexes⟩ := h
  refine ⟨body ++ '(' :: ((join ", " (genExprs noScope args)).toList ++ [')']), ?_,
    hopens.append _, fun rest _ ↦ ?_⟩
  · rw [genExpr, if_neg hcallee.1, if_neg hcallee.2]
    simp only [String.toList_append, htext, List.append_assoc]
    rfl
  · have hkinds : bodyKinds (.call e args) = bodyKinds e ++ ([(.lParen, "(")] ++
        (argKinds args ++ [(.rParen, ")")])) := by
      rw [bodyKinds]
      simp only [List.append_assoc, List.cons_append, List.nil_append]
    rw [hkinds]
    refine .append (hlexes _ ?_) (.cons lexes_paren (.append (lexes_args hargs _) lexes_close))
    exact endsText_cons (by decide) (by decide) _

theorem method (hname : PlainMember name) (h : ReadAsKinds e)
    (hargs : ∀ e ∈ args, ReadAsKinds e) : ReadAsKinds (.method e name args) := by
  have hplain : genExpr noScope (.method e name args)
      = genExpr noScope e ++ "." ++ name ++ "(" ++ join ", " (genExprs noScope args) ++ ")" := by
    have hnone : (e.ident?.bind fun enumName ↦ sealedFields [] enumName name) = none := by
      cases e.ident? <;> rfl
    have hother := hname.other
    simp only [List.mem_cons, List.not_mem_nil, or_false, not_or] at hother
    rw [genExpr, hnone]
    dsimp only
    rw [methodText, if_neg hother.1, if_neg hother.2.1, if_neg (not_or.mpr hother.2.2)]
  obtain ⟨body, htext, hopens, hlexes⟩ := h
  refine ⟨body ++ '.' :: (name.toList ++ '(' ::
    ((join ", " (genExprs noScope args)).toList ++ [')'])), ?_, hopens.append _, fun rest _ ↦ ?_⟩
  · rw [hplain]
    simp only [String.toList_append, htext, List.append_assoc]
    rfl
  · have hkinds : bodyKinds (.method e name args) = bodyKinds e ++ ([(.dot, ".")] ++
        ([(.ident, name)] ++ ([(.lParen, "(")] ++ (argKinds args ++ [(.rParen, ")")])))) := by
      rw [bodyKinds]
      simp only [List.append_assoc, List.cons_append, List.nil_append]
    rw [hkinds]
    refine .append (hlexes _ ?_) (.cons ?_ (.append (lexes_name hname.toIsName ?_)
      (.cons lexes_paren (.append (lexes_args hargs _) lexes_close))))
    · rw [List.cons_append, List.append_assoc]
      exact endsText_dot hname.toIsName
    · rw [List.append_assoc]
      exact lexes_dot hname.toIsName
    · exact (endsText_cons (by decide) (by decide) _).1

theorem field (hname : PlainMember name) (h : ReadAsKinds e) : ReadAsKinds (.field e name) := by
  have hother := hname.other
  simp only [List.mem_cons, List.not_mem_nil, or_false, not_or] at hother
  obtain ⟨body, htext, hopens, hlexes⟩ := h
  refine ⟨body ++ '.' :: name.toList, ?_, hopens.append _, fun rest hrest ↦ ?_⟩
  · rw [genExpr, fieldText, if_neg (not_or.mpr hother.2.2)]
    simp only [String.toList_append, htext, List.append_assoc]
    rfl
  · have hkinds : bodyKinds (.field e name) = bodyKinds e ++ ([(.dot, ".")] ++
        [(.ident, name)]) := by
      rw [bodyKinds]
      simp only [List.cons_append, List.nil_append]
    rw [hkinds]
    refine .append (hlexes _ ?_) (.cons (lexes_dot hname.toIsName)
      (lexes_name hname.toIsName hrest.1))
    exact endsText_dot hname.toIsName

end ReadAsKinds

theorem isString_of_plain {e : Expr} (h : Plain e) : e.isString = false := by
  cases e with
  | string value => exact h.elim
  | _ => rfl

theorem ident?_of_plain {e : Expr} (h : Plain e) :
    e.ident? ≠ some "range" ∧ e.ident? ≠ some "println" := by
  cases e with
  | ident name =>
    have hother := h.other
    constructor
    · intro heq
      cases heq
      exact hother (by decide)
    · intro heq
      cases heq
      exact hother (by decide)
  | _ => exact ⟨fun h ↦ (nomatch h), fun h ↦ (nomatch h)⟩

mutual

/-- **The text of an expression is read as its tokens.** -/
theorem readAsKinds : (e : Expr) → Plain e → ReadAsKinds e
  | .int _, h => .int h
  | .float _, h => .float h
  | .bool b, _ => .bool b
  | .ident _, h => .ident h.toIsName
  | .binary _ left right, h =>
    .binary h.1 ⟨isString_of_plain h.2.1, isString_of_plain h.2.2⟩ (readAsKinds left h.2.1)
      (readAsKinds right h.2.2)
  | .unary op operand, h => by
    have hoperand := readAsKinds operand h.2
    rcases h.1 with hop | hop | hop
    · exact .unary (.inl hop) hoperand
    · exact .unary (.inr hop) hoperand
    · exact .ref hop.1 hoperand
  | .call callee args, h =>
    .call (ident?_of_plain h.1) (readAsKinds callee h.1) (readAsKinds_args args h.2)
  | .method recv _ args, h => .method h.2.1 (readAsKinds recv h.1) (readAsKinds_args args h.2.2)
  | .field recv _, h => .field h.2 (readAsKinds recv h.1)

theorem readAsKinds_args : (args : List Expr) → Plains args → ∀ e ∈ args, ReadAsKinds e
  | [], _ => fun _ h ↦ nomatch h
  | e :: args, h => List.forall_mem_cons.mpr ⟨readAsKinds e h.1, readAsKinds_args args h.2⟩

end

end Agex

end Zeroxos
