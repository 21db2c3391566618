import Zeroxos.Agex.Lines
import Zeroxos.Library.RustFormat

/-!
# What is printed

`print` becomes `println!`, whose format string has the string literals among the arguments as they
are and a placeholder for each of the others. What is spliced in is not escaped: the format string
says what the arguments say exactly when no literal has a brace, a quote, a backslash or a carriage
return in it.
-/

namespace Zeroxos

namespace Agex

open FormatItem

/-- What is to be printed for an argument. -/
def argItems : Expr → List FormatItem
  | .string value => value.toList.map .char
  | _ => [.placeholder]

/-- What is to be printed for arguments, which single spaces separate. -/
def printItems : List Expr → List FormatItem
  | [] => []
  | [e] => argItems e
  | e :: f :: args => argItems e ++ .char ' ' :: printItems (f :: args)

/-- What is to follow the format string: the arguments that are no string literals, in their
order. -/
def printTail (s : Scope) (args : List Expr) : String :=
  let rest := nonStrings args (genExprs s args)
  (if rest.isEmpty then "" else ", " ++ join ", " rest) ++ ")"

/-- A text that ends with `ends` is read as `println!` of the arguments. -/
def PrintsAs (s : Scope) (args : List Expr) (text ends : String) : Prop :=
  readPrintln text.toList = some (printItems args, (printTail s args ++ ends).toList)

/-- The statement and the call both print the arguments. -/
def PrintsArguments (s : Scope) (args : List Expr) : Prop :=
  (∃ line, stmtLines s (.printStmt args) = [(0, line)] ∧ PrintsAs s args line ";")
    ∧ PrintsAs s args (genExpr s (.call (.ident "println") args)) ""

/-- A literal that means the same in a format string. -/
def PlainLiteral (value : String) : Prop :=
  ∀ c ∈ value.toList, c ≠ '{' ∧ c ≠ '}' ∧ c ≠ '"' ∧ c ≠ '\\' ∧ c ≠ '\r'

variable {s : Scope} {args : List Expr}

theorem toList_placeholder (e : Expr) :
    (placeholder e).toList = (argItems e).flatMap verbatim := by
  cases e with
  | string value =>
    rw [placeholder, argItems, List.flatMap_map]
    exact (List.flatMap_singleton' _).symm
  | _ =>
    rw [placeholder, argItems]
    · simp [verbatim]
    all_goals exact fun _ h ↦ Expr.noConfusion h

/-- The format string is what is to be printed, without any escapes. -/
theorem toList_format (args : List Expr) :
    (join " " (args.map placeholder)).toList = (printItems args).flatMap verbatim := by
  induction args with
  | nil => rfl
  | cons e args ih =>
    cases args with
    | nil => exact toList_placeholder e
    | cons f args =>
      have hjoin : join " " ((e :: f :: args).map placeholder)
          = placeholder e ++ " " ++ join " " ((f :: args).map placeholder) := rfl
      rw [hjoin, printItems, String.toList_append, String.toList_append, ih, toList_placeholder,
        List.flatMap_append, List.flatMap_cons, List.append_assoc]
      rfl

/-- What is written has the format string between quotes, and the other arguments behind it. -/
theorem toList_printlnText (hargs : args ≠ []) (ends : String) :
    (printlnText args (genExprs s args) ++ ends).toList
      = "println!(\"".toList ++ ((printItems args).flatMap verbatim
        ++ '"' :: (printTail s args ++ ends).toList) := by
  rw [printlnText, if_neg (by simpa using hargs), ← toList_format, printTail]
  dsimp only
  split_ifs
  · simp only [String.toList_append, String.toList_empty, List.append_assoc]
    rfl
  · simp only [String.toList_append, List.append_assoc]
    rfl

theorem printsAs_iff (hargs : args ≠ []) (ends : String) :
    PrintsAs s args (printlnText args (genExprs s args) ++ ends) ends ↔
      ∀ i ∈ printItems args, i.IsPlain := by
  rw [PrintsAs, toList_printlnText hargs]
  exact readFormatLiteral_verbatim_iff (printItems args) _

theorem isPlain_printItems :
    (∀ i ∈ printItems args, i.IsPlain) ↔ ∀ value, .string value ∈ args → PlainLiteral value := by
  have hspace : (FormatItem.char ' ').IsPlain := by
    have hall : ' ' ≠ '{' ∧ ' ' ≠ '}' ∧ ' ' ≠ '"' ∧ ' ' ≠ '\\' ∧ ' ' ≠ '\r' := by decide
    exact hall
  have harg : ∀ e, (∀ i ∈ argItems e, i.IsPlain) ↔ ∀ value, e = .string value →
      PlainLiteral value := by
    intro e
    cases e with
    | string value =>
      rw [argItems, List.forall_mem_map]
      refine ⟨fun h v hv ↦ ?_, fun h ↦ h value rfl⟩
      cases hv
      exact h
    | _ =>
      refine iff_of_true (List.forall_mem_singleton.mpr trivial) fun v hv ↦ ?_
      cases hv
  have hcons : ∀ (e : Expr) (args : List Expr),
      (∀ value, .string value ∈ e :: args → PlainLiteral value) ↔
        (∀ value, e = .string value → PlainLiteral value)
          ∧ ∀ value, .string value ∈ args → PlainLiteral value := by
    intro e args
    constructor
    · intro h
      exact ⟨fun v hv ↦ h v (hv ▸ List.mem_cons_self), fun v hv ↦ h v (List.mem_cons_of_mem _ hv)⟩
    · rintro ⟨he, hargs⟩ v hv
      rcases List.mem_cons.mp hv with hv | hv
      · exact he v hv.symm
      · exact hargs v hv
  induction args with
  | nil => exact iff_of_true (List.forall_mem_nil _) fun v hv ↦ absurd hv List.not_mem_nil
  | cons e args ih =>
    refine Iff.trans ?_ ((hcons e args).trans (and_congr (harg e).symm ih.symm)).symm
    cases args with
    | nil => exact (and_iff_left (List.forall_mem_nil _)).symm
    | cons f args =>
      rw [printItems, List.forall_mem_append, List.forall_mem_cons]
      exact and_congr_right fun _ ↦ and_iff_right hspace

/-- **Print format strings** match their arguments exactly when no literal among them has a brace, a
quote, a backslash or a carriage return. -/
theorem print_format_iff (s : Scope) (args : List Expr) :
    PrintsArguments s args ↔ ∀ value, .string value ∈ args → PlainLiteral value := by
  have hcall : genExpr s (.call (.ident "println") args) = printlnText args (genExprs s args) := by
    have hname : (Expr.ident "println").ident? = some "println" := rfl
    rw [genExpr, hname, if_neg (by decide), if_pos rfl]
  have hline : ∀ line, stmtLines s (.printStmt args) = [(0, line)] ↔
      line = printlnText args (genExprs s args) ++ ";" := by
    intro line
    rw [stmtLines]
    simp only [List.cons.injEq, Prod.mk.injEq, true_and, and_true, eq_comm]
  simp only [PrintsArguments, hline, exists_eq_left, hcall]
  cases args with
  | nil =>
    have htext : printlnText [] (genExprs s []) = "println!()" := rfl
    have htail : printTail s [] = ")" := rfl
    rw [PrintsAs, PrintsAs, htext, htail]
    exact iff_of_true (by decide +kernel) fun v hv ↦ absurd hv List.not_mem_nil
  | cons e args =>
    rw [← isPlain_printItems, printsAs_iff (List.cons_ne_nil e args) ";"]
    have hempty := printsAs_iff (s := s) (List.cons_ne_nil e args) ""
    rw [String.append_empty] at hempty
    rw [hempty, and_self_iff]

/-- **A brace in a literal** is taken for a placeholder: `print("{}")`. -/
theorem print_format_brace : ¬∀ s args, PrintsArguments s args := by
  intro h
  have hitems : readPrintln "println!(\"{}\")".toList = some ([.placeholder], [')']) := by
    rw [← List.append_nil "println!(\"{}\")".toList]
    exact (readFormatLiteral_verbatim_iff [.placeholder] [')']).mpr
      (List.forall_mem_singleton.mpr trivial)
  have hprints := (h ⟨[], []⟩ [.string "{}"]).2
  have htext : genExpr ⟨[], []⟩ (.call (.ident "println") [.string "{}"]) = "println!(\"{}\")" := by
    decide +kernel
  rw [PrintsAs, htext, hitems] at hprints
  have hlength := congrArg (fun r : Option (List FormatItem × List Char) ↦
    (r.map fun r ↦ r.1.length).getD 0) hprints
  exact absurd hlength (by decide)

end Agex

end Zeroxos
