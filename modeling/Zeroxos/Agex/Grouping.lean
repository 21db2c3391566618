import Zeroxos.Agex.ExprReads
import Zeroxos.Agex.RefCount

/-!
# Emitted expressions keep their grouping, or not

The generator puts parentheses around binary operators, `!` and `-`, but not around `&`. A reference
in front of a call, a method or a field is therefore read as a reference to the call, the method or
the field, and a field that is called is read as a method.

## The expression that is read

`regroup` is that expression, and it is the one that was written exactly when that one is grouped.
It is found in two steps: the ampersands in front (`amps`), and the rest (`core`), in which every
reference has moved outwards.

## Ampersands

Where two references come together the text begins with `&&`, which is no prefix operator, and there
are not enough ampersands left for the expression to be read at all: the parser makes no more
references than it passes ampersands, and the text has as many as the expression has references.
-/

namespace Zeroxos

namespace Agex

open Parse

/-! ## The expression that is read -/

/-- References to references. -/
def refs : ℕ → Expr → Expr
  | 0, e => e
  | k + 1, e => .unary "&" (refs k e)

/-- A call, which is that of a method when the callee is a field. -/
def callOn : Expr → List Expr → Expr
  | .field recv name, args => .method recv name args
  | callee, args => .call callee args

mutual

/-- What is read behind the ampersands. -/
def core : Expr → Expr
  | .binary op left right =>
    .binary op (refs (amps left) (core left)) (refs (amps right) (core right))
  | .unary op operand =>
    if op = "&" then core operand else .unary op (refs (amps operand) (core operand))
  | .call callee args => callOn (core callee) (cores args)
  | .method recv name args => .method (core recv) name (cores args)
  | .field recv name => .field (core recv) name
  | e => e

/-- What is read for each. -/
def cores : List Expr → List Expr
  | [] => []
  | e :: l => refs (amps e) (core e) :: cores l

end

/-- The expression that is read. -/
def regroup (e : Expr) : Expr := refs (amps e) (core e)

mutual

/-- No operand and no argument begins with more than one ampersand. -/
def SingleAmps : Expr → Prop
  | .binary _ left right =>
    (amps left ≤ 1 ∧ SingleAmps left) ∧ amps right ≤ 1 ∧ SingleAmps right
  | .unary op operand => (op ≠ "&" → amps operand ≤ 1) ∧ SingleAmps operand
  | .call callee args => SingleAmps callee ∧ SinglesAmps args
  | .method recv _ args => SingleAmps recv ∧ SinglesAmps args
  | .field recv _ => SingleAmps recv
  | _ => True

/-- `SingleAmps` of each. -/
def SinglesAmps : List Expr → Prop
  | [] => True
  | e :: l => (amps e ≤ 1 ∧ SingleAmps e) ∧ SinglesAmps l

end

/-- What is to be shown of the expression behind the ampersands. -/
structure IsCore (e e' : Expr) : Prop where
  plain : Plain e'
  grouped : Grouped e'
  notRef : e'.isRef = false
  body_eq : bodyKinds e' = bodyKinds e

/-- What is to be shown of an operand or an argument. -/
structure IsRegrouped (e e' : Expr) : Prop where
  plain : Plain e'
  grouped : Grouped e'
  kinds_eq : kinds e' = kinds e

section

variable {e e' : Expr} {name op : String} {args args' : List Expr}

theorem IsCore.amps_eq_zero (h : IsCore e e') : amps e' = 0 := by
  rw [amps_of_grouped h.plain h.grouped, h.notRef]
  rfl

theorem IsCore.operand (h : IsCore e (core e)) (hamps : amps e ≤ 1) :
    IsRegrouped e (regroup e) := by
  have hcases : amps e = 0 ∨ amps e = 1 := by omega
  rcases hcases with hzero | hone
  · rw [regroup, hzero]
    refine ⟨h.plain, h.grouped, ?_⟩
    rw [refs, kinds, kinds, hzero, h.amps_eq_zero, h.body_eq]
  · rw [regroup, hone]
    refine ⟨⟨.inr (.inr ⟨rfl, h.notRef⟩), h.plain⟩, h.grouped, ?_⟩
    rw [refs, refs, kinds, kinds, hone, amps, if_pos rfl, h.amps_eq_zero, bodyKinds,
      if_pos rfl, h.body_eq]

theorem IsCore.of_token (hplain : Plain e) (hgrouped : Grouped e) (href : e.isRef = false) :
    IsCore e e := ⟨hplain, hgrouped, href, rfl⟩

theorem IsCore.call (h : IsCore e e') (hplain : Plains args') (hgrouped : Groupeds args')
    (hkinds : argKinds args' = argKinds args) : IsCore (.call e args) (callOn e' args') := by
  by_cases hfield : e'.isField = true
  · cases e' with
    | field recv name =>
      refine ⟨⟨h.plain.1, h.plain.2, hplain⟩, ⟨h.grouped.1, h.grouped.2, hgrouped⟩, rfl, ?_⟩
      have hrecv : bodyKinds recv ++ [(.dot, "."), (.ident, name)] = bodyKinds e := h.body_eq
      rw [callOn, bodyKinds, bodyKinds, ← hrecv, hkinds]
      simp only [List.append_assoc, List.cons_append, List.nil_append]
    | _ => cases hfield
  · rw [Bool.not_eq_true] at hfield
    have hcall : callOn e' args' = .call e' args' := by
      cases e' with
      | field recv name => cases hfield
      | _ => rfl
    rw [hcall]
    refine ⟨⟨h.plain, hplain⟩, ⟨⟨h.notRef, hfield⟩, h.grouped, hgrouped⟩, rfl, ?_⟩
    rw [bodyKinds, bodyKinds, h.body_eq, hkinds]

theorem IsCore.method (h : IsCore e e') (hname : PlainMember name) (hplain : Plains args')
    (hgrouped : Groupeds args') (hkinds : argKinds args' = argKinds args) :
    IsCore (.method e name args) (.method e' name args') := by
  refine ⟨⟨h.plain, hname, hplain⟩, ⟨h.notRef, h.grouped, hgrouped⟩, rfl, ?_⟩
  rw [bodyKinds, bodyKinds, h.body_eq, hkinds]

theorem IsCore.field (h : IsCore e e') (hname : PlainMember name) :
    IsCore (.field e name) (.field e' name) := by
  refine ⟨⟨h.plain, hname⟩, ⟨h.notRef, h.grouped⟩, rfl, ?_⟩
  rw [bodyKinds, bodyKinds, h.body_eq]

theorem IsCore.binary {left right : Expr} (hop : (binaryTy op).isSome)
    (hleft : IsRegrouped left (regroup left)) (hright : IsRegrouped right (regroup right)) :
    IsCore (.binary op left right) (.binary op (regroup left) (regroup right)) := by
  refine ⟨⟨hop, hleft.plain, hright.plain⟩, ⟨hleft.grouped, hright.grouped⟩, rfl, ?_⟩
  have hl : ampKinds (amps (regroup left)) ++ bodyKinds (regroup left)
      = ampKinds (amps left) ++ bodyKinds left := hleft.kinds_eq
  have hr : ampKinds (amps (regroup right)) ++ bodyKinds (regroup right)
      = ampKinds (amps right) ++ bodyKinds right := hright.kinds_eq
  rw [bodyKinds, bodyKinds, hl, hr]

theorem IsCore.unary (hop : op = "!" ∨ op = "-") (h : IsRegrouped e (regroup e)) :
    IsCore (.unary op e) (.unary op (regroup e)) := by
  have hne : op ≠ "&" := by
    rcases hop with rfl | rfl <;> decide
  refine ⟨⟨hop.imp_right .inl, h.plain⟩, h.grouped, decide_eq_false hne, ?_⟩
  have hoperand : ampKinds (amps (regroup e)) ++ bodyKinds (regroup e)
      = ampKinds (amps e) ++ bodyKinds e := h.kinds_eq
  rw [bodyKinds, bodyKinds, if_neg hne, if_neg hne, hoperand]

end

/-- What is read for arguments. -/
structure AreRegrouped (args args' : List Expr) : Prop where
  plain : Plains args'
  grouped : Groupeds args'
  args_eq : argKinds args' = argKinds args
  more_eq : moreKinds args' = moreKinds args

theorem AreRegrouped.cons {e e' : Expr} {args args' : List Expr} (h : IsRegrouped e e')
    (hargs : AreRegrouped args args') : AreRegrouped (e :: args) (e' :: args') := by
  have hkinds : ampKinds (amps e') ++ bodyKinds e' = ampKinds (amps e) ++ bodyKinds e := h.kinds_eq
  refine ⟨⟨h.plain, hargs.plain⟩, ⟨h.grouped, hargs.grouped⟩, ?_, ?_⟩
  · rw [argKinds, argKinds, hkinds, hargs.more_eq]
  · rw [moreKinds, moreKinds, hkinds, hargs.more_eq]

mutual

/-- **What is read** is grouped and has the same tokens. -/
theorem isCore : (e : Expr) → Plain e → SingleAmps e → IsCore e (core e)
  | .int _, h, _ => .of_token h trivial rfl
  | .float _, h, _ => .of_token h trivial rfl
  | .bool _, h, _ => .of_token h trivial rfl
  | .ident _, h, _ => .of_token h trivial rfl
  | .binary _ left right, h, hamps =>
    .binary h.1 ((isCore left h.2.1 hamps.1.2).operand hamps.1.1)
      ((isCore right h.2.2 hamps.2.2).operand hamps.2.1)
  | .unary op operand, h, hamps => by
    have hoperand := isCore operand h.2 hamps.2
    by_cases hop : op = "&"
    · rw [core, if_pos hop]
      refine ⟨hoperand.plain, hoperand.grouped, hoperand.notRef, ?_⟩
      rw [bodyKinds, if_pos hop, hoperand.body_eq]
    · rw [core, if_neg hop]
      refine .unary ?_ (hoperand.operand (hamps.1 hop))
      exact h.1.imp_right fun h ↦ h.resolve_right fun href ↦ hop href.1
  | .call callee args, h, hamps =>
    have hargs := areRegrouped args h.2 hamps.2
    .call (isCore callee h.1 hamps.1) hargs.plain hargs.grouped hargs.args_eq
  | .method recv _ args, h, hamps =>
    have hargs := areRegrouped args h.2.2 hamps.2
    .method (isCore recv h.1 hamps.1) h.2.1 hargs.plain hargs.grouped hargs.args_eq
  | .field recv _, h, hamps => .field (isCore recv h.1 hamps) h.2

theorem areRegrouped : (args : List Expr) → Plains args → SinglesAmps args →
    AreRegrouped args (cores args)
  | [], _, _ => ⟨trivial, trivial, rfl, rfl⟩
  | e :: args, h, hamps =>
    .cons ((isCore e h.1 hamps.1.2).operand hamps.1.1) (areRegrouped args h.2 hamps.2)

end

/-! ## Ampersands -/

/-- The references that tokens can make. -/
def ampCosts (l : List Kind) : ℕ := (l.map ampCost).sum

theorem ampCosts_append (l l' : List Kind) : ampCosts (l ++ l') = ampCosts l + ampCosts l' := by
  rw [ampCosts, List.map_append, List.sum_append]
  rfl

theorem ampCosts_cons {k : Kind} (h : ampCost k = 0) (l : List Kind) :
    ampCosts (k :: l) = ampCosts l := by
  rw [ampCosts, List.map_cons, List.sum_cons, h, Nat.zero_add]
  rfl

/-- Where two ampersands are one token, there are not enough of them. -/
theorem ampCosts_ampKinds (k : ℕ) :
    ampCosts (ampKinds k) ≤ k ∧ (k ≤ ampCosts (ampKinds k) → k ≤ 1) := by
  match k with
  | 0 => exact ⟨le_rfl, fun _ ↦ Nat.zero_le 1⟩
  | 1 => exact ⟨le_rfl, fun _ ↦ le_rfl⟩
  | k + 2 =>
    have hle := (ampCosts_ampKinds k).1
    rw [ampKinds, ampCosts_cons (by decide)]
    exact ⟨by omega, fun h ↦ by omega⟩

/-- There are no more ampersands than references, and as many only if they stand alone. -/
structure Affords (e : Expr) : Prop where
  le : ampCosts (bodyKinds e) + amps e ≤ refCount e
  single : refCount e ≤ ampCosts (bodyKinds e) + amps e → SingleAmps e

theorem Affords.operand {e : Expr} (h : Affords e) : ampCosts (kinds e) ≤ refCount e ∧
    (refCount e ≤ ampCosts (kinds e) → amps e ≤ 1 ∧ SingleAmps e) := by
  have hamps := ampCosts_ampKinds (amps e)
  have hle := h.le
  rw [kinds, ampCosts_append]
  refine ⟨by omega, fun hge ↦ ⟨hamps.2 (by omega), h.single (by omega)⟩⟩

theorem ampCost_of_ne {k : Kind} (hty : k.1 ≠ .amp) (hvalue : k.2 ≠ "&") : ampCost k = 0 :=
  if_neg (not_or.mpr ⟨hty, hvalue⟩)

theorem ne_amp_of_name {name : String} (h : IsName name) : name ≠ "&" := by
  rintro rfl
  exact absurd (h.chars '&' (by decide)) (by decide)

theorem ampCost_name {name : String} (h : IsName name) : ampCost (.ident, name) = 0 :=
  ampCost_of_ne (fun h ↦ TokenType.noConfusion h) (ne_amp_of_name h)

theorem ne_amp_of_number {value : String} {l : List Char} (hvalue : value.toList = l)
    (h : ∃ d ∈ l.head?, isAsciiDigit d = true) : value ≠ "&" := by
  rintro rfl
  obtain ⟨d, hd, hdigit⟩ := h
  rw [← hvalue] at hd
  cases hd
  exact absurd hdigit (by decide)

section

variable {e left right : Expr} {op name : String} {args : List Expr}

theorem Affords.of_token {k : Kind} (hkinds : bodyKinds e = [k]) (hamps : amps e = 0)
    (hty : k.1 ≠ .amp) (hvalue : k.2 ≠ "&") (hsingle : SingleAmps e) : Affords e := by
  refine ⟨?_, fun _ ↦ hsingle⟩
  rw [hkinds, hamps, ampCosts_cons (ampCost_of_ne hty hvalue)]
  exact Nat.zero_le _

theorem Affords.binary (hop : (binaryTy op).isSome) (hleft : Affords left)
    (hright : Affords right) : Affords (.binary op left right) := by
  have hcost : ampCost (binaryKind op) = 0 := by
    obtain ⟨ty, hty⟩ := Option.isSome_iff_exists.mp hop
    have hkind : binaryKind op = (ty, op) := by
      rw [binaryKind, hty]
      rfl
    rw [hkind]
    unfold binaryTy at hty
    split at hty <;> cases hty <;> decide
  have hkinds : bodyKinds (.binary op left right) = (.lParen, "(") ::
      (kinds left ++ binaryKind op :: (kinds right ++ [(.rParen, ")")])) := by
    rw [bodyKinds]
    simp only [kinds, List.append_assoc, List.cons_append]
  have hl := hleft.operand
  have hr := hright.operand
  have hsum : ampCosts (bodyKinds (.binary op left right)) + amps (.binary op left right)
      = ampCosts (kinds left) + ampCosts (kinds right) := by
    rw [hkinds, ampCosts_cons (by decide), ampCosts_append, ampCosts_cons hcost, ampCosts_append]
    rfl
  refine ⟨?_, fun hge ↦ ?_⟩
  · rw [hsum, refCount]
    omega
  · rw [hsum, refCount] at hge
    exact ⟨hl.2 (by omega), hr.2 (by omega)⟩

theorem Affords.ref (hop : op = "&") (h : Affords e) : Affords (.unary op e) := by
  have hle := h.le
  have hsum : ampCosts (bodyKinds (.unary op e)) + amps (.unary op e)
      = ampCosts (bodyKinds e) + amps e + 1 := by
    rw [bodyKinds, if_pos hop, amps, if_pos hop]
    rfl
  refine ⟨?_, fun hge ↦ ⟨fun hne ↦ absurd hop hne, h.single ?_⟩⟩
  · rw [hsum, refCount, if_pos hop]
    omega
  · rw [hsum, refCount, if_pos hop] at hge
    omega

theorem Affords.unary (hop : op = "!" ∨ op = "-") (h : Affords e) : Affords (.unary op e) := by
  have hne : op ≠ "&" := by
    rcases hop with rfl | rfl <;> decide
  have hcost : ampCost (unaryKind op) = 0 := by
    rcases hop with rfl | rfl <;> decide
  have hkinds : bodyKinds (.unary op e) = (.lParen, "(") :: unaryKind op ::
      (kinds e ++ [(.rParen, ")")]) := by
    rw [bodyKinds, if_neg hne]
    simp only [kinds, List.append_assoc, List.cons_append]
  have hsum : ampCosts (bodyKinds (.unary op e)) + amps (.unary op e) = ampCosts (kinds e) := by
    rw [hkinds, ampCosts_cons (by decide), ampCosts_cons hcost, ampCosts_append, amps, if_neg hne]
    rfl
  have hoperand := h.operand
  refine ⟨?_, fun hge ↦ ?_⟩
  · rw [hsum, refCount]
    omega
  · rw [hsum, refCount, if_neg hne] at hge
    have hsingle := hoperand.2 (by omega)
    exact ⟨fun _ ↦ hsingle.1, hsingle.2⟩

theorem affords_args (h : ∀ e ∈ args, Affords e) :
    (ampCosts (moreKinds args) ≤ refCounts args ∧ ampCosts (argKinds args) ≤ refCounts args) ∧
      (refCounts args ≤ ampCosts (moreKinds args) → SinglesAmps args) ∧
      (refCounts args ≤ ampCosts (argKinds args) → SinglesAmps args) := by
  induction args with
  | nil => exact ⟨⟨le_rfl, le_rfl⟩, fun _ ↦ trivial, fun _ ↦ trivial⟩
  | cons e args ih =>
    obtain ⟨he, hargs⟩ := List.forall_mem_cons.mp h
    obtain ⟨⟨hmore, -⟩, hsingle, -⟩ := ih hargs
    have hoperand := he.operand
    have hmoreKinds : ampCosts (moreKinds (e :: args))
        = ampCosts (kinds e) + ampCosts (moreKinds args) := by
      rw [moreKinds, List.cons_append, ampCosts_cons (by decide), ampCosts_append]
      rfl
    have hargKinds : ampCosts (argKinds (e :: args))
        = ampCosts (kinds e) + ampCosts (moreKinds args) := ampCosts_append _ _
    rw [hmoreKinds, hargKinds, refCounts]
    have hge : refCount e + refCounts args ≤ ampCosts (kinds e) + ampCosts (moreKinds args) →
        SinglesAmps (e :: args) := fun hge ↦ ⟨hoperand.2 (by omega), hsingle (by omega)⟩
    exact ⟨⟨by omega, by omega⟩, hge, hge⟩

theorem Affords.applied {e' : Expr} (h : Affords e) (hargs : ∀ e ∈ args, Affords e)
    (hsum : ampCosts (bodyKinds e') + amps e' =
      ampCosts (bodyKinds e) + amps e + ampCosts (argKinds args))
    (hcount : refCount e' = refCount e + refCounts args)
    (hsingle : SingleAmps e → SinglesAmps args → SingleAmps e') : Affords e' := by
  obtain ⟨⟨-, hle⟩, -, hargsSingle⟩ := affords_args hargs
  have hrecv := h.le
  refine ⟨?_, fun hge ↦ ?_⟩
  · rw [hsum, hcount]
    omega
  · rw [hsum, hcount] at hge
    exact hsingle (h.single (by omega)) (hargsSingle (by omega))

theorem Affords.call (h : Affords e) (hargs : ∀ e ∈ args, Affords e) :
    Affords (.call e args) := by
  refine h.applied hargs ?_ (by rw [refCount]) fun he hargs ↦ ⟨he, hargs⟩
  rw [bodyKinds, List.append_assoc, ampCosts_append, List.cons_append, ampCosts_cons (by decide),
    ampCosts_append, amps]
  exact Nat.add_right_comm _ _ _

theorem Affords.method (hname : IsName name) (h : Affords e) (hargs : ∀ e ∈ args, Affords e) :
    Affords (.method e name args) := by
  have hcost := ampCost_name hname
  refine h.applied hargs ?_ (by rw [refCount]) fun he hargs ↦ ⟨he, hargs⟩
  rw [bodyKinds, List.append_assoc, ampCosts_append, List.cons_append, ampCosts_cons (by decide),
    List.cons_append, ampCosts_cons hcost, List.cons_append, ampCosts_cons (by decide),
    ampCosts_append, amps]
  exact Nat.add_right_comm _ _ _

theorem Affords.field (hname : IsName name) (h : Affords e) : Affords (.field e name) := by
  have hrecv := h.le
  have hcost := ampCost_name hname
  have hsum : ampCosts (bodyKinds (.field e name)) + amps (.field e name)
      = ampCosts (bodyKinds e) + amps e := by
    rw [bodyKinds, ampCosts_append, ampCosts_cons (by decide), ampCosts_cons hcost, amps]
    rfl
  refine ⟨?_, fun hge ↦ ?_⟩
  · rw [hsum, refCount]
    omega
  · rw [hsum, refCount] at hge
    exact h.single hge

end

mutual

/-- **There are no more ampersands than references.** -/
theorem affords : (e : Expr) → Plain e → Affords e
  | .int _, ⟨_, _, hvalue, hdigit, _⟩ =>
    .of_token rfl rfl (fun h ↦ TokenType.noConfusion h)
      (ne_amp_of_number hvalue (head_append_of_mem hdigit)) trivial
  | .float _, ⟨_, _, _, hvalue, hdigit, _⟩ =>
    .of_token rfl rfl (fun h ↦ TokenType.noConfusion h)
      (ne_amp_of_number hvalue (head_append_of_mem (head_append_of_mem hdigit))) trivial
  | .bool b, _ =>
    .of_token rfl rfl (fun h ↦ TokenType.noConfusion h) (by cases b <;> decide) trivial
  | .ident _, h =>
    .of_token rfl rfl (fun h ↦ TokenType.noConfusion h) (ne_amp_of_name h.toIsName) trivial
  | .binary _ left right, h => .binary h.1 (affords left h.2.1) (affords right h.2.2)
  | .unary op operand, h => by
    have hoperand := affords operand h.2
    rcases h.1 with hop | hop | hop
    · exact .unary (.inl hop) hoperand
    · exact .unary (.inr hop) hoperand
    · exact .ref hop.1 hoperand
  | .call callee args, h => .call (affords callee h.1) (affords_all args h.2)
  | .method recv _ args, h =>
    .method h.2.1.toIsName (affords recv h.1) (affords_all args h.2.2)
  | .field recv _, h => .field h.2.toIsName (affords recv h.1)

theorem affords_all : (args : List Expr) → Plains args → ∀ e ∈ args, Affords e
  | [], _ => fun _ h ↦ nomatch h
  | e :: args, h => List.forall_mem_cons.mpr ⟨affords e h.1, affords_all args h.2⟩

end

/-! ## Reading an expression again -/

/-- The text of an expression is read as that expression, with nothing left. -/
def ReadsBack (fuel : ℕ) (e : Expr) : Prop :=
  ∃ toks c' eof, tokenize (genExpr noScope e) = some (.ok toks) ∧
    parseExpr fuel (newParser toks) = (.ok e, c') ∧ c'.rest = [eof] ∧ eof.ty = .eof

section

variable {e e' : Expr} {fuel : ℕ} {toks : List Token}

/-- What is grouped is read from its tokens. -/
theorem parseExpr_grouped (hplain : Plain e) (hgrouped : Grouped e)
    (hfuel : (kinds e).length ≤ fuel) (htoks : toks.map Token.kind = kinds e ++ [(.eof, "")]) :
    ∃ c' eof, parseExpr fuel (newParser toks) = (.ok e, c') ∧ c'.rest = [eof] ∧ eof.ty = .eof := by
  have hends : EndsPostfix (.eof, "") := by
    refine ⟨?_, ?_, ?_⟩ <;> decide
  have hread : Parses (parseExpr fuel) (kinds e ++ [(.eof, "")]) e [(.eof, "")] :=
    expr_of_unary hplain hgrouped (reads_grouped e hplain hgrouped).1 hfuel hends rfl
  obtain ⟨c', hrun, hrest⟩ := hread (newParser toks) htoks
  obtain ⟨eof, heof, hkind⟩ := List.map_eq_singleton_iff.mp hrest
  exact ⟨c', eof, hrun, heof, congrArg Prod.fst hkind⟩

/-- What has been read has no more references than there are ampersands. -/
theorem singleAmps_of_parse (hplain : Plain e)
    (htoks : toks.map Token.kind = kinds e ++ [(.eof, "")]) {c' : Cursor Token}
    (hparse : parseExpr fuel (newParser toks) = (.ok e, c')) : amps e ≤ 1 ∧ SingleAmps e := by
  have hmakes := parseExpr_makes fuel 0 _ _ _ hparse
  have hworth : (newParser toks).worth (fun t ↦ ampCost t.kind) = ampCosts (kinds e) := by
    have hsum : (newParser toks).worth (fun t ↦ ampCost t.kind)
        = ((toks.map Token.kind).map ampCost).sum := by
      rw [List.map_map]
      rfl
    have hcosts : ((toks.map Token.kind).map ampCost).sum = ampCosts (kinds e ++ [(.eof, "")]) := by
      rw [htoks]
      rfl
    rw [hsum, hcosts, ampCosts_append]
    rfl
  dsimp only at hmakes
  rw [hworth, Nat.zero_add, Nat.zero_add] at hmakes
  exact (affords e hplain).operand.2 (Nat.le_of_add_right_le hmakes)

theorem readsBack_iff_grouped (hplain : Plain e)
    (hfuel : ∀ toks, tokenize (genExpr noScope e) = some (.ok toks) → toks.length ≤ fuel) :
    ReadsBack fuel e ↔ Grouped e := by
  obtain ⟨toks, eof, hrun, hkinds, heof⟩ := ((readAsKinds e hplain).lexes endsText_nil).tokenize
  have htoks : (toks ++ [eof]).map Token.kind = kinds e ++ [(.eof, "")] := by
    rw [List.map_append, hkinds, ← heof]
    rfl
  have hlen : (kinds e).length ≤ fuel := by
    have hle := hfuel _ hrun
    rw [← hkinds, List.length_map]
    rw [List.length_append] at hle
    omega
  constructor
  · rintro ⟨toks', c', eof', hrun', hparse, -⟩
    obtain rfl : toks ++ [eof] = toks' := by
      rw [hrun] at hrun'
      cases hrun'
      rfl
    obtain ⟨hamps, hsingle⟩ := singleAmps_of_parse hplain htoks hparse
    have hregroup := (isCore e hplain hsingle).operand hamps
    rw [← hregroup.kinds_eq] at hlen htoks
    obtain ⟨c, eof₁, hparse', -⟩ :=
      parseExpr_grouped hregroup.plain hregroup.grouped hlen htoks
    rw [hparse] at hparse'
    have heq : e = regroup e := Outcome.ok.inj (Prod.ext_iff.mp hparse').1
    rw [heq]
    exact hregroup.grouped
  · intro hgrouped
    obtain ⟨c', eof', hparse, hrest, hty⟩ := parseExpr_grouped hplain hgrouped hlen htoks
    exact ⟨_, c', eof', hrun, hparse, hrest, hty⟩

end

end Agex

end Zeroxos
