import Zeroxos.Agex.Codegen
import Zeroxos.Agex.Lexer

/-!
# Emitted text read again

What the generator writes for an expression is read by the lexer of agex itself. `Lexes` says of a
text that it is read as certain tokens when certain characters follow; texts are put together by
`Lexes.append`, and there is one lemma for each kind of token.

A string literal is written as it is, between quotes. It comes back when it has neither a quote nor
a backslash in it, and otherwise does not.
-/

namespace Zeroxos

namespace Agex

/-- What the parser reads of a token, which is all but its position. -/
def Token.kind (t : Token) : TokenType × String := (t.ty, t.value)

/-- In front of `rest`, the text `cs` is read as the tokens `ks`, in no more rounds than it has
characters. -/
def Lexes (cs : List Char) (ks : List (TokenType × String)) (rest : List Char) : Prop :=
  ∀ line col, ∃ n ≤ cs.length, ∃ toks line' col', toks.map Token.kind = ks ∧
    ∀ fuel tokens, lexLoop (fuel + n) ⟨cs ++ rest, line, col⟩ tokens
      = lexLoop fuel ⟨rest, line', col'⟩ (tokens ++ toks)

variable {cs cs' rest : List Char} {ks ks' : List (TokenType × String)}

namespace Lexes

theorem nil : Lexes [] [] rest := fun line col ↦
  ⟨0, le_rfl, [], line, col, rfl, fun fuel tokens ↦ by rw [List.append_nil]; rfl⟩

theorem append (h : Lexes cs ks (cs' ++ rest)) (h' : Lexes cs' ks' rest) :
    Lexes (cs ++ cs') (ks ++ ks') rest := by
  intro line col
  obtain ⟨n, hn, toks, line₁, col₁, hkinds, hrun⟩ := h line col
  obtain ⟨n', hn', toks', line₂, col₂, hkinds', hrun'⟩ := h' line₁ col₁
  refine ⟨n' + n, ?_, toks ++ toks', line₂, col₂, ?_, fun fuel tokens ↦ ?_⟩
  · rw [List.length_append]
    omega
  · rw [List.map_append, hkinds, hkinds']
  · rw [← Nat.add_assoc, List.append_assoc, hrun, hrun', List.append_assoc]

theorem of_step {c : Char}
    (h : ∀ line col, ∃ token line' col', token.toList.map Token.kind = ks ∧
      lexStep c ⟨c :: cs ++ rest, line, col⟩ = .ok (token, ⟨rest, line', col'⟩)) :
    Lexes (c :: cs) ks rest := by
  intro line col
  obtain ⟨token, line', col', hkinds, hstep⟩ := h line col
  refine ⟨1, Nat.succ_pos _, token.toList, line', col', hkinds, fun fuel tokens ↦ ?_⟩
  rw [lexLoop]
  dsimp only [List.cons_append] at hstep ⊢
  rw [hstep]

theorem tokenize {s : String} (h : Lexes s.toList ks []) :
    ∃ toks eof, tokenize s = some (.ok (toks ++ [eof])) ∧ toks.map Token.kind = ks ∧
      eof.kind = (.eof, "") := by
  obtain ⟨n, hn, toks, line, col, hkinds, hrun⟩ := h 1 1
  refine ⟨toks, ⟨.eof, "", line, col⟩, ?_, hkinds, rfl⟩
  have hfuel : s.toList.length + 1 = s.toList.length - n + 1 + n := by omega
  have hrun' := hrun (s.toList.length - n + 1) []
  rw [List.append_nil, List.nil_append, ← hfuel] at hrun'
  exact hrun'

end Lexes

/-! ## String literals -/

theorem stringBody_of_plain {v acc : List Char} {line col : ℕ}
    (h : '"' ∉ v ∧ '\\' ∉ v) : ∃ line' col',
    stringBody (v ++ '"' :: rest) line col acc = some (acc.reverse ++ v, ⟨rest, line', col'⟩) := by
  induction v generalizing line col acc with
  | nil => exact ⟨line, col + 1, by rw [List.append_nil]; rfl⟩
  | cons c v ih =>
    obtain ⟨hquote, hslash⟩ := h
    rw [List.mem_cons, not_or] at hquote hslash
    have hstep : ∃ line' col', stringBody (c :: v ++ '"' :: rest) line col acc
        = stringBody (v ++ '"' :: rest) line' col' (c :: acc) := by
      rw [List.cons_append, stringBody]
      · split_ifs
        · exact ⟨_, _, rfl⟩
        · exact ⟨_, _, rfl⟩
      · exact fun heq ↦ hquote.1 heq.symm
      · exact fun _ _ heq _ ↦ hslash.1 heq.symm
    obtain ⟨line', col', heq⟩ := hstep
    obtain ⟨line₂, col₂, hrest⟩ : ∃ line₂ col₂, stringBody (v ++ '"' :: rest) line' col' (c :: acc)
        = some ((c :: acc).reverse ++ v, ⟨rest, line₂, col₂⟩) := ih ⟨hquote.2, hslash.2⟩
    refine ⟨line₂, col₂, ?_⟩
    rw [heq, hrest, List.reverse_cons, List.append_assoc]
    rfl

/-- What a body of this length can be read as: a character is lost for the closing quote, one for
each escape, and what is behind the quote. -/
def LosesQuote (l acc value : List Char) : Prop :=
  value.length + 1 ≤ acc.length + l.length ∧
    (value.length + 1 = acc.length + l.length → '"' ∉ l.dropLast ∧ '\\' ∉ l)

theorem LosesQuote.cons {c : Char} {l acc value : List Char} (hne : l ≠ []) (hquote : c ≠ '"')
    (hslash : c ≠ '\\') (h : LosesQuote l (c :: acc) value) : LosesQuote (c :: l) acc value := by
  obtain ⟨hle, heq⟩ := h
  rw [List.length_cons, Nat.add_right_comm, Nat.add_assoc] at hle heq
  refine ⟨hle, fun hlength ↦ ?_⟩
  obtain ⟨hq, hs⟩ := heq hlength
  rw [List.dropLast_cons_of_ne_nil hne, List.mem_cons, List.mem_cons, not_or, not_or]
  exact ⟨⟨hquote.symm, hq⟩, hslash.symm, hs⟩

theorem losesQuote_of_stringBody {l acc value : List Char} {line col : ℕ} {s : LexState}
    (h : stringBody l line col acc = some (value, s)) : LosesQuote l acc value := by
  -- an unescaped character is not the last, and a backslash in front of another escapes it
  have hplain : ∀ {rest : List Char} {line col : ℕ} {acc : List Char} {c : Char},
      stringBody rest line col acc = some (value, s) →
      (∀ esc rest', c = '\\' → rest = esc :: rest' → False) → rest ≠ [] ∧ c ≠ '\\' := by
    intro rest line col acc c hrest hslash
    cases rest with
    | nil => cases hrest
    | cons esc rest => exact ⟨List.cons_ne_nil _ _, fun hc ↦ hslash esc rest hc rfl⟩
  fun_induction stringBody l line col acc with
  | case1 => cases h
  | case2 rest line col acc =>
    cases h
    refine ⟨?_, fun hlength ↦ ?_⟩
    · rw [List.length_reverse, List.length_cons]
      omega
    · rw [List.length_reverse, List.length_cons] at hlength
      obtain rfl : rest = [] := List.eq_nil_of_length_eq_zero (by omega)
      exact ⟨List.not_mem_nil, by decide⟩
  | case3 esc rest line col acc ih =>
    obtain ⟨hle, -⟩ := ih h
    rw [List.length_cons] at hle
    refine ⟨?_, fun hlength ↦ ?_⟩
    · rw [List.length_cons, List.length_cons]
      omega
    · rw [List.length_cons, List.length_cons] at hlength
      omega
  | case4 rest line col acc hquote hslash ih =>
    obtain ⟨hne, hc⟩ := hplain h hslash
    exact (ih h).cons hne hquote hc
  | case5 rest line col acc c hquote hslash hnl ih =>
    obtain ⟨hne, hc⟩ := hplain h hslash
    exact (ih h).cons hne hquote hc

theorem lexStep_quote (l : List Char) (line col : ℕ) :
    lexStep '"' ⟨'"' :: l, line, col⟩ = match stringBody l line (col + 1) [] with
      | some (value, s') => .ok (some ⟨.stringLiteral, String.ofList value, line, col⟩, s')
      | none => .error (.unterminatedString line col) := by
  rw [lexStep, if_neg (by decide), if_neg (by decide), if_neg (by simp), if_neg (by simp),
    if_neg (by decide), if_pos rfl]
  rfl

theorem prefix_of_lexLoop {fuel : ℕ} {s : LexState} {tokens toks : List Token}
    (h : lexLoop fuel s tokens = some (.ok toks)) : tokens <+: toks := by
  induction fuel generalizing s tokens with
  | zero => cases h
  | succ fuel ih =>
    rw [lexLoop] at h
    split at h
    · cases h
      exact List.prefix_append _ _
    · split at h
      · cases h
      · exact (List.prefix_append _ _).trans (ih h)

/-- The emitted literal is read as one string literal of the same value. -/
def StringReadsBack (s : Scope) (value : String) : Prop :=
  ∃ literal eof, tokenize (genExpr s (.string value)) = some (.ok [literal, eof]) ∧
    literal.kind = (.stringLiteral, value) ∧ eof.kind = (.eof, "")

theorem toList_genExpr_string (s : Scope) (value : String) :
    (genExpr s (.string value)).toList = '"' :: (value.toList ++ ['"']) := by
  rw [genExpr, String.toList_append, String.toList_append, List.append_assoc]
  rfl

theorem lexes_string {s : Scope} {value : String} (h : '"' ∉ value.toList ∧ '\\' ∉ value.toList) :
    Lexes (genExpr s (.string value)).toList [(.stringLiteral, value)] [] := by
  rw [toList_genExpr_string]
  refine .of_step fun line col ↦ ?_
  obtain ⟨line', col', hbody⟩ : ∃ line' col', stringBody (value.toList ++ ['"']) line (col + 1) []
      = some ([].reverse ++ value.toList, ⟨[], line', col'⟩) := stringBody_of_plain h
  refine ⟨some ⟨.stringLiteral, value, line, col⟩, line', col', rfl, ?_⟩
  rw [List.append_nil, lexStep_quote, hbody, List.reverse_nil, List.nil_append]
  dsimp only
  rw [String.ofList_toList]

/-- **Emitted string literals** denote the source string exactly when it has no quote and no
backslash. -/
theorem string_reads_back_iff (s : Scope) (value : String) :
    StringReadsBack s value ↔ '"' ∉ value.toList ∧ '\\' ∉ value.toList := by
  constructor
  · rintro ⟨literal, eof, hrun, hkind, -⟩
    rw [tokenize, toList_genExpr_string, lexLoop] at hrun
    dsimp only at hrun
    rw [lexStep_quote] at hrun
    cases hbody : stringBody (value.toList ++ ['"']) 1 (1 + 1) [] with
    | none =>
      rw [hbody] at hrun
      cases hrun
    | some r =>
      rw [hbody] at hrun
      have hfirst := prefix_of_lexLoop hrun
      obtain ⟨rfl, -⟩ := List.cons_prefix_cons.mp hfirst
      have hvalue : r.1 = value.toList := by
        have hsnd : String.ofList r.1 = value := congrArg Prod.snd hkind
        rw [← hsnd, String.toList_ofList]
      obtain ⟨-, hplain⟩ := losesQuote_of_stringBody hbody
      rw [hvalue, List.length_append, List.dropLast_concat, List.mem_append, not_or] at hplain
      obtain ⟨hquote, hslash, -⟩ := hplain (Nat.zero_add _).symm
      exact ⟨hquote, hslash⟩
  · intro hplain
    obtain ⟨toks, eof, hrun, hkinds, heof⟩ := (lexes_string hplain).tokenize
    obtain ⟨literal, rfl, hkind⟩ := List.map_eq_singleton_iff.mp hkinds
    exact ⟨literal, eof, hrun, hkind, heof⟩

/-- A quote that was escaped in the source ends the literal. -/
theorem quote_ends_literal :
    tokenize "\"\\\"\"" = some (.ok [⟨.stringLiteral, "\"", 1, 1⟩, ⟨.eof, "", 1, 5⟩]) ∧
    ¬StringReadsBack ⟨[], []⟩ "\"" := by
  refine ⟨by rfl, ?_⟩
  rintro ⟨literal, eof, hrun, -⟩
  have herr : tokenize (genExpr ⟨[], []⟩ (.string "\""))
      = some (.error (.unterminatedString 1 3)) := by rfl
  rw [herr] at hrun
  cases hrun

end Agex

end Zeroxos
