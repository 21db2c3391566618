import Zeroxos.Agex.Lines
import Zeroxos.Agex.ParserPlaces
import Zeroxos.Agex.ParserTotal
import Zeroxos.Agex.Respell

/-!
# The agex compiler

`transpile` parses a source and hands the tree to the generator. It ends on every source, with Rust
or with an error.

## What it reads

White space and comments have no say in which, and none in the Rust: between a source and what comes
out stand the types and texts of its tokens, and two sources that agree in them are compiled alike
(`transpile_sees_tokens`). Only the line and the column that an error is reported at may differ. One
of these sources can be written down from the tokens (`respell_normal`).
-/

namespace Zeroxos

namespace Agex

inductive CompileError
  | lexer (e : LexerError)
  | parse (e : ParseError)
deriving DecidableEq, Repr

structure TranspileResult where
  rustSource : String
  warnings : List String
deriving DecidableEq, Repr

/-- `transpile`; what the lexer reports comes out of `parse`. -/
def transpile (fuel : ℕ) (src : String) : Outcome CompileError TranspileResult :=
  match parse fuel src with
  | .ok ast =>
    match generate ast with
    | some result => .ok ⟨result.rust, result.warnings⟩
    | none => .panic
  | .err e => .err (.parse e)
  | .panic => .panic
  | .outOfFuel => .outOfFuel

/-- The same error, perhaps at another place. -/
inductive CompileError.Same : CompileError → CompileError → Prop
  | parse {e e' : ParseError} (h : SameError e e') : Same (.parse e) (.parse e')

/-! ## It ends -/

theorem length_lexLoop {fuel : ℕ} {s : LexState} {tokens toks : List Token}
    (h : lexLoop fuel s tokens = some (.ok toks)) :
    toks.length ≤ tokens.length + s.rest.length + 1 := by
  induction fuel generalizing s tokens with
  | zero => cases h
  | succ fuel ih =>
    obtain ⟨l, line, col⟩ := s
    rw [lexLoop] at h
    cases l with
    | nil =>
      cases h
      exact (List.length_append).le
    | cons c l =>
      dsimp only at h
      split at h
      · cases h
      · rename_i token s' hstep
        have hlt := (lexStep_spec hstep).1
        have htoken : token.toList.length ≤ 1 := by cases token <;> simp
        have hlength := ih h
        rw [List.length_append] at hlength
        dsimp only at hlt ⊢
        omega

theorem length_tokenize {src : String} {toks : List Token}
    (h : tokenize src = some (.ok toks)) : toks.length ≤ src.toList.length + 1 := by
  have hlength := length_lexLoop h
  rwa [List.length_nil, Nat.zero_add] at hlength

theorem transpile_of_ok {fuel : ℕ} {src : String} {ast : Program}
    (h : parse fuel src = .ok ast) :
    transpile fuel src = .ok ⟨layout 0 (programLines ast), []⟩ := by
  rw [transpile, h]
  dsimp only
  rw [generate_eq_layout]

theorem transpile_of_err {fuel : ℕ} {src : String} {e : ParseError}
    (h : parse fuel src = .err e) : transpile fuel src = .err (.parse e) := by
  rw [transpile, h]

/-- **The compiler ends**, with an output or an error, and does not panic. -/
theorem transpile_total {fuel : ℕ} {src : String} (hfuel : src.toList.length + 1 ≤ fuel) :
    (∃ result, transpile fuel src = .ok result) ∨ ∃ e, transpile fuel src = .err e := by
  obtain ⟨r, hr, -⟩ := tokenize_spec src
  cases r with
  | error e =>
    have hparse : parse fuel src = .err (.lexer e) := by rw [parse, hr]
    exact .inr ⟨_, transpile_of_err hparse⟩
  | ok toks =>
    obtain ⟨-, -, -, -, -, -, hends, -, -⟩ := parser_total hr ((length_tokenize hr).trans hfuel)
    rcases hends with ⟨ast, hparse⟩ | ⟨e, hparse⟩
    · exact .inl ⟨_, transpile_of_ok hparse⟩
    · exact .inr ⟨_, transpile_of_err hparse⟩

/-! ## What it reads -/

variable {src src' : String} {toks toks' : List Token}

theorem newParser_alike (h : toks.map Token.kind = toks'.map Token.kind) :
    (newParser toks).Alike SameKind (newParser toks') := by
  refine ⟨?_, rfl, rfl⟩
  rw [← List.forall₂_eq_eq_eq, List.forall₂_map_left_iff, List.forall₂_map_right_iff] at h
  exact h

theorem parse_alike (h : tokenize src = some (.ok toks)) (h' : tokenize src' = some (.ok toks'))
    (hkinds : toks.map Token.kind = toks'.map Token.kind) (fuel : ℕ) :
    (parse fuel src).Alike SameError Eq (parse fuel src') := by
  rw [parse, parse, h, h']
  exact (parseProgram_blind _ _ (newParser_alike hkinds)).1

/-- The same Rust, or errors that differ in the place. -/
def CompiledAlike (fuel : ℕ) (src src' : String) : Prop :=
  (∃ result, transpile fuel src = .ok result ∧ transpile fuel src' = .ok result) ∨
    ∃ e e', transpile fuel src = .err e ∧ transpile fuel src' = .err e' ∧ e.Same e'

theorem compiledAlike_of_kinds (h : tokenize src = some (.ok toks))
    (h' : tokenize src' = some (.ok toks')) (hkinds : toks.map Token.kind = toks'.map Token.kind)
    {fuel : ℕ} (hfuel : toks.length ≤ fuel) : CompiledAlike fuel src src' := by
  obtain ⟨-, -, -, -, -, -, hends, -, -⟩ := parser_total h hfuel
  have hparse := parse_alike h h' hkinds fuel
  rcases hends with ⟨ast, hok⟩ | ⟨e, herr⟩
  · rw [hok] at hparse
    generalize hsame : parse fuel src' = o at hparse
    cases hparse with
    | ok heq =>
      subst heq
      exact .inl ⟨_, transpile_of_ok hok, transpile_of_ok hsame⟩
  · rw [herr] at hparse
    generalize hsame : parse fuel src' = o at hparse
    cases hparse with
    | err he => exact .inr ⟨_, _, transpile_of_err herr, transpile_of_err hsame, .parse he⟩

end Agex

open Agex in
/-- **The compiler sees tokens, not layout.** Two sources whose tokens have the same types and texts
are compiled to the same Rust with the same warnings, or are refused with the same message about the
same token, at a line and column that may differ. -/
theorem transpile_sees_tokens {src src' : String} {toks toks' : List Token}
    (h : tokenize src = some (.ok toks)) (h' : tokenize src' = some (.ok toks'))
    (hkinds : toks.map Token.kind = toks'.map Token.kind) {fuel : ℕ}
    (hfuel : toks.length ≤ fuel) : CompiledAlike fuel src src' :=
  compiledAlike_of_kinds h h' hkinds hfuel

open Agex in
/-- A comment, a line break and a blank make no difference. -/
theorem transpile_sees_tokens_comment :
    CompiledAlike 7 "fn f() => 1" "fn f() // one\n\t=> 1" := by
  have h : tokenize "fn f() => 1" = some (.ok constFnTokens) := by rfl
  have h' : tokenize "fn f() // one\n\t=> 1" = some (.ok [⟨.fnKw, "fn", 1, 1⟩, ⟨.ident, "f", 1, 4⟩,
      ⟨.lParen, "(", 1, 5⟩, ⟨.rParen, ")", 1, 6⟩, ⟨.fatArrow, "=>", 2, 2⟩,
      ⟨.intLiteral, "1", 2, 5⟩, ⟨.eof, "", 2, 6⟩]) := by rfl
  have hfuel : constFnTokens.length ≤ 7 := le_rfl
  exact transpile_sees_tokens h h' rfl hfuel

open Agex in
/-- **Tokens have a normal form.** The tokens of a source, written down one after the other, are
read as the same tokens, so that they are written down the same way again and compiled as the source
is, but for the line and the column of an error; and two sources are written down alike exactly when
their tokens have the same types and texts. -/
theorem respell_normal {src src' : String} {toks toks' : List Token}
    (h : tokenize src = some (.ok toks)) (h' : tokenize src' = some (.ok toks')) :
    (∃ again, tokenize (respell toks) = some (.ok again) ∧
      again.map Token.kind = toks.map Token.kind ∧ respell again = respell toks) ∧
    (∀ fuel, toks.length ≤ fuel → CompiledAlike fuel src (respell toks)) ∧
    (respell toks = respell toks' ↔ toks.map Token.kind = toks'.map Token.kind) := by
  obtain ⟨again, hagain, hkinds⟩ := (spelled_tokenize h).tokenize_respell
  obtain ⟨again', hagain', hkinds'⟩ := (spelled_tokenize h').tokenize_respell
  refine ⟨⟨again, hagain, hkinds, respell_congr hkinds⟩,
    fun fuel ↦ compiledAlike_of_kinds h hagain hkinds.symm, fun heq ↦ ?_, respell_congr⟩
  rw [heq, hagain'] at hagain
  obtain rfl : again' = again := Except.ok.inj (Option.some.inj hagain)
  exact hkinds.symm.trans hkinds'

open Agex in
/-- A comment, and an escape that is not needed. -/
theorem respell_normal_escape :
    CompiledAlike 2 "'\\a' //" "'a'  " ∧ ∃ again, tokenize "'a'  " = some (.ok again) ∧
      respell again = "'a'  " := by
  have h : tokenize "'\\a' //" = some (.ok [⟨.charLiteral, "a", 1, 1⟩, ⟨.eof, "", 1, 6⟩]) := by rfl
  have hrespell : respell [⟨.charLiteral, "a", 1, 1⟩, ⟨.eof, "", 1, 6⟩] = "'a'  " := by rfl
  obtain ⟨⟨again, hagain, -, heq⟩, halike, -⟩ := respell_normal h h
  rw [hrespell] at hagain heq halike
  exact ⟨halike 2 le_rfl, again, hagain, heq⟩

end Zeroxos
