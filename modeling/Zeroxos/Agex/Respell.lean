import Zeroxos.Agex.Lexemes

/-!
# Writing tokens down again

A token vector can be written as a source: every token as its text, the literals between quotes and
with the quotes and backslashes in them escaped, and a blank behind each. The lexer reads the source
as the same tokens at other places.

## A normal form

Two sources have the same one exactly when they are read as the same tokens, whatever white space
and comments there are in them, and however the characters in their literals are written. It is
written down from the tokens alone, so that writing it again changes nothing.
-/

namespace Zeroxos

namespace Agex

variable {rest : List Char} {c : Char} {ty : TokenType} {value : String}

/-! ## Texts of tokens -/

/-- What the lexer can make a token of, literals apart from their quotes. -/
inductive Lexeme : TokenType → String → Prop
  | name {value : String} (h : IsName value) : Lexeme .ident value
  | int {value : String} (h : IsInt value) : Lexeme .intLiteral value
  | float {value : String} (h : IsFloat value) : Lexeme .floatLiteral value
  | keyword {k : String × TokenType} (h : k ∈ keywords) : Lexeme k.2 k.1
  | ellipsis : Lexeme .ellipsis "..."
  | two {c d : Char} {ty : TokenType} (h : twoTy [c, d] = some ty) :
      Lexeme ty (String.ofList [c, d])
  | one {c : Char} {ty : TokenType} (h : oneTy c = some ty) : Lexeme ty c.toString
  | string (value : String) : Lexeme .stringLiteral value
  | char (value : String) : Lexeme .charLiteral value

/-- A character between quotes. -/
def escape (quote c : Char) : List Char := if c = quote ∨ c = '\\' then ['\\', c] else [c]

/-- A literal. -/
def literal (quote : Char) (value : String) : List Char :=
  quote :: (value.toList.flatMap (escape quote) ++ [quote])

/-- The text of a token. -/
def spell : Kind → List Char
  | (.stringLiteral, value) => literal '"' value
  | (.charLiteral, value) => literal '\'' value
  | (_, value) => value.toList

/-- The texts of tokens, each with a blank behind it. -/
def respell (toks : List Token) : String :=
  String.ofList (toks.flatMap fun t ↦ spell t.kind ++ [' '])

theorem spell_of_ne (hstring : ty ≠ .stringLiteral) (hchar : ty ≠ .charLiteral) :
    spell (ty, value) = value.toList := by
  rw [spell]
  · exact hstring
  · exact hchar

theorem spell_of_oneTy (h : oneTy c = some ty) : spell (ty, c.toString) = [c] := by
  have hall : ∀ p ∈ oneOperators, p.2 ≠ .stringLiteral ∧ p.2 ≠ .charLiteral := by decide
  have hty := hall _ (mem_oneOperators h)
  rw [spell_of_ne hty.1 hty.2, Char.toString_eq_singleton, String.toList_singleton]

theorem spell_of_twoTy {d : Char} (h : twoTy [c, d] = some ty) :
    spell (ty, String.ofList [c, d]) = [c, d] := by
  have hall : ∀ p ∈ twoOperators, p.2 ≠ .stringLiteral ∧ p.2 ≠ .charLiteral := by decide
  have hty := hall _ (mem_twoOperators h)
  rw [spell_of_ne hty.1 hty.2, String.toList_ofList]

/-! ## Texts are read -/

theorem endsText_blank : EndsText (' ' :: rest) := endsText_cons rfl (by decide) rest

theorem lexes_keyword {k : String × TokenType} (h : k ∈ keywords)
    (hrest : ∀ c ∈ rest.head?, isIdentChar c = false) : Lexes k.1.toList [(k.2, k.1)] rest := by
  have hchars : ∀ k ∈ keywords, k.1.toList.all isIdentChar = true ∧
      k.1.toList.head?.any (fun c ↦ isAsciiAlphabetic c || c = '_') = true := by decide
  have hfind : ∀ k ∈ keywords, keywords.find? (fun k' ↦ k'.1 = k.1) = some k := by decide
  obtain ⟨hall, hany⟩ := hchars k h
  obtain ⟨c, hc, hfirst⟩ := (Option.any_eq_true _ _).mp hany
  have hident : ∀ c ∈ k.1.toList, isIdentChar c = true := List.all_eq_true.mp hall
  obtain ⟨htake, hdrop⟩ := span_append hident hrest
  obtain ⟨l, hname⟩ : ∃ l, k.1.toList = c :: l := List.head?_eq_some_iff.mp hc
  rw [hname] at htake hdrop ⊢
  refine .of_step fun line col ↦
    ⟨some ⟨k.2, k.1, line, col⟩, line, col + (c :: l).length, rfl, ?_⟩
  rw [List.cons_append] at htake hdrop ⊢
  rw [lexStep_name hfirst, lexIdent]
  dsimp only
  rw [htake, hdrop, ← hname, String.ofList_toList, hfind k h]
  rfl

theorem lexes_ellipsis : Lexes ['.', '.', '.'] [(.ellipsis, "...")] rest := by
  refine .of_step fun line col ↦ ⟨some ⟨.ellipsis, "...", line, col⟩, line, col + 3, rfl, ?_⟩
  rw [List.cons_append, lexStep_operator (by decide) fun h ↦ absurd h (by decide)]
  rfl

theorem twoTy_blank (c : Char) : twoTy [c, ' '] = none := by
  have hall : ∀ p ∈ twoOperators, p.1[1]? ≠ some ' ' := by decide
  exact twoTy_eq_none fun p hp h ↦ hall p hp (by rw [h]; rfl)

theorem lexes_one_blank (h : oneTy c = some ty) :
    Lexes [c] [(ty, c.toString)] (' ' :: rest) := by
  have hblank : ∀ {d}, d ∈ (' ' :: rest).head? → d = ' ' := fun hd ↦ (Option.some.inj hd).symm
  refine lexes_one h (fun d hd ↦ ?_) (fun _ d hd ↦ ?_) fun _ d hd ↦ ?_
  · rw [hblank hd]
    exact twoTy_blank c
  · rw [hblank hd]
    exact ⟨by decide, by decide⟩
  · rw [hblank hd]
    decide

theorem unescape_of_escaped {quote : Char} (hquote : quote = '"' ∨ quote = '\'')
    (h : c = quote ∨ c = '\\') : unescape c = c := by
  rcases hquote with rfl | rfl <;> rcases h with rfl | rfl <;> rfl

/-- What is between the quotes of a string literal comes back. -/
theorem stringBody_escape (v acc : List Char) (line col : ℕ) : ∃ line' col',
    stringBody (v.flatMap (escape '"') ++ '"' :: rest) line col acc
      = some (acc.reverse ++ v, ⟨rest, line', col'⟩) := by
  induction v generalizing line col acc with
  | nil => exact ⟨line, col + 1, by rw [List.append_nil]; rfl⟩
  | cons c v ih =>
    have hstep : ∃ line' col',
        stringBody ((c :: v).flatMap (escape '"') ++ '"' :: rest) line col acc
          = stringBody (v.flatMap (escape '"') ++ '"' :: rest) line' col' (c :: acc) := by
      rw [List.flatMap_cons, escape]
      split_ifs with hescape
      · refine ⟨line, col + 2, ?_⟩
        have hread : stringBody ('\\' :: c :: (v.flatMap (escape '"') ++ '"' :: rest)) line col acc
            = stringBody (v.flatMap (escape '"') ++ '"' :: rest) line (col + 2)
              (unescape c :: acc) := rfl
        rw [unescape_of_escaped (.inl rfl) hescape] at hread
        exact hread
      · rw [not_or] at hescape
        rw [List.cons_append, List.cons_append, List.nil_append, stringBody]
        · split_ifs
          · exact ⟨_, _, rfl⟩
          · exact ⟨_, _, rfl⟩
        · exact hescape.1
        · exact fun _ _ heq _ ↦ hescape.2 heq
    obtain ⟨line', col', heq⟩ := hstep
    obtain ⟨line₂, col₂, hrest⟩ := ih (c :: acc) line' col'
    refine ⟨line₂, col₂, ?_⟩
    rw [heq, hrest, List.reverse_cons, List.append_assoc]
    rfl

theorem charBody_escape (v acc : List Char) (line col : ℕ) : ∃ line' col',
    charBody (v.flatMap (escape '\'') ++ '\'' :: rest) line col acc
      = (acc.reverse ++ v, ⟨rest, line', col'⟩) := by
  induction v generalizing line col acc with
  | nil => exact ⟨line, col + 1, by rw [List.append_nil]; rfl⟩
  | cons c v ih =>
    have hstep : ∃ line' col',
        charBody ((c :: v).flatMap (escape '\'') ++ '\'' :: rest) line col acc
          = charBody (v.flatMap (escape '\'') ++ '\'' :: rest) line' col' (c :: acc) := by
      rw [List.flatMap_cons, escape]
      split_ifs with hescape
      · refine ⟨line, col + 2, ?_⟩
        have hread : charBody ('\\' :: c :: (v.flatMap (escape '\'') ++ '\'' :: rest)) line col acc
            = charBody (v.flatMap (escape '\'') ++ '\'' :: rest) line (col + 2)
              (unescape c :: acc) := rfl
        rw [unescape_of_escaped (.inr rfl) hescape] at hread
        exact hread
      · rw [not_or] at hescape
        refine ⟨line, col + 1, ?_⟩
        rw [List.cons_append, List.cons_append, List.nil_append, charBody]
        · exact hescape.1
        · exact fun _ _ heq _ ↦ hescape.2 heq
    obtain ⟨line', col', heq⟩ := hstep
    obtain ⟨line₂, col₂, hrest⟩ := ih (c :: acc) line' col'
    refine ⟨line₂, col₂, ?_⟩
    rw [heq, hrest, List.reverse_cons, List.append_assoc]
    rfl

theorem lexes_stringLiteral (value : String) :
    Lexes (literal '"' value) [(.stringLiteral, value)] rest := by
  refine .of_step fun line col ↦ ?_
  obtain ⟨line', col', hbody⟩ : ∃ line' col',
      stringBody (value.toList.flatMap (escape '"') ++ '"' :: rest) line (col + 1) []
        = some (value.toList, ⟨rest, line', col'⟩) :=
    stringBody_escape value.toList [] line (col + 1)
  refine ⟨some ⟨.stringLiteral, value, line, col⟩, line', col', rfl, ?_⟩
  rw [List.cons_append, lexStep_quote, List.append_assoc, List.cons_append, List.nil_append, hbody]
  dsimp only
  rw [String.ofList_toList]

theorem lexStep_apostrophe (l : List Char) (line col : ℕ) :
    lexStep '\'' ⟨'\'' :: l, line, col⟩
      = .ok (some ⟨.charLiteral, String.ofList (charBody l line (col + 1) []).1, line, col⟩,
        (charBody l line (col + 1) []).2) := by
  rw [lexStep, if_neg (by decide), if_neg (by decide), if_neg (by simp), if_neg (by simp),
    if_neg (by decide), if_neg (by decide), if_pos rfl]
  rfl

theorem lexes_charLiteral (value : String) :
    Lexes (literal '\'' value) [(.charLiteral, value)] rest := by
  refine .of_step fun line col ↦ ?_
  obtain ⟨line', col', hbody⟩ : ∃ line' col',
      charBody (value.toList.flatMap (escape '\'') ++ '\'' :: rest) line (col + 1) []
        = (value.toList, ⟨rest, line', col'⟩) := charBody_escape value.toList [] line (col + 1)
  refine ⟨some ⟨.charLiteral, value, line, col⟩, line', col', rfl, ?_⟩
  rw [List.cons_append, lexStep_apostrophe, List.append_assoc, List.cons_append, List.nil_append,
    hbody]
  dsimp only
  rw [String.ofList_toList]

/-- **A text in front of a blank is read as its token.** -/
theorem Lexeme.lexes (h : Lexeme ty value) :
    Lexes (spell (ty, value)) [(ty, value)] (' ' :: rest) := by
  have hblank : ∀ c ∈ (' ' :: rest).head?, isIdentChar c = false := by
    intro c hc
    cases hc
    decide
  cases h with
  | name h => exact lexes_name h hblank
  | int h => exact lexes_int h endsText_blank
  | float h => exact lexes_float h endsText_blank
  | @keyword k h =>
    have hall : ∀ k ∈ keywords, k.2 ≠ .stringLiteral ∧ k.2 ≠ .charLiteral := by decide
    rw [spell_of_ne (hall k h).1 (hall k h).2]
    exact lexes_keyword h hblank
  | ellipsis => exact lexes_ellipsis
  | two h =>
    rw [spell_of_twoTy h]
    exact lexes_two h
  | one h =>
    rw [spell_of_oneTy h]
    exact lexes_one_blank h
  | string value => exact lexes_stringLiteral value
  | char value => exact lexes_charLiteral value

/-! ## Tokens have texts -/

theorem lexeme_lexIdent {l : List Char} {line col : ℕ}
    (hc : (isAsciiAlphabetic c || c = '_') = true) :
    Lexeme (lexIdent ⟨c :: l, line, col⟩).1.ty (lexIdent ⟨c :: l, line, col⟩).1.value := by
  have hwritten : WellWritten (lexIdent ⟨c :: l, line, col⟩).1 := wellWritten_lexIdent hc
  rw [lexIdent] at hwritten ⊢
  dsimp only at hwritten ⊢
  cases hfind : keywords.find? fun k ↦ k.1 = String.ofList ((c :: l).takeWhile isIdentChar) with
  | none =>
    rw [hfind] at hwritten
    exact .name (hwritten.name rfl)
  | some k =>
    have hvalue : k.1 = String.ofList ((c :: l).takeWhile isIdentChar) := by
      simpa using List.find?_some hfind
    rw [← hvalue]
    exact .keyword (List.mem_of_find?_eq_some hfind)

theorem lexeme_lexNumber {l : List Char} {line col : ℕ} (hc : isAsciiDigit c = true) :
    Lexeme (lexNumber ⟨c :: l, line, col⟩).1.ty (lexNumber ⟨c :: l, line, col⟩).1.value := by
  have hwritten : WellWritten (lexNumber ⟨c :: l, line, col⟩).1 := wellWritten_lexNumber hc
  have hty : (lexNumber ⟨c :: l, line, col⟩).1.ty = .floatLiteral ∨
      (lexNumber ⟨c :: l, line, col⟩).1.ty = .intLiteral := by
    rw [lexNumber]
    dsimp only
    split_ifs
    · exact .inl rfl
    · exact .inr rfl
  rcases hty with hty | hty
  · rw [hty]
    exact .float (hwritten.float hty)
  · rw [hty]
    exact .int (hwritten.int hty)

theorem lexeme_lexOperator {l : List Char} {line col : ℕ} {t : Token} {s' : LexState}
    (h : lexOperator c ⟨c :: l, line, col⟩ = .ok (t, s')) : Lexeme t.ty t.value := by
  rw [lexOperator] at h
  dsimp only at h
  split_ifs at h
  · cases h
    exact .ellipsis
  split at h
  · rename_i ty hty
    cases h
    obtain ⟨d, hd⟩ : ∃ d, (c :: l).take 2 = [c, d] := by
      have htwo : ∀ p ∈ twoOperators, p.1.length = 2 := by decide
      have hlength := htwo _ (mem_twoOperators hty)
      cases l with
      | nil => cases hlength
      | cons d l => exact ⟨d, rfl⟩
    dsimp only
    rw [hd] at hty ⊢
    exact .two hty
  split at h
  · rename_i ty hty
    cases h
    exact .one hty
  · cases h

theorem lexeme_lexStep {l : List Char} {line col : ℕ} {s' : LexState} {token : Option Token}
    (h : lexStep c ⟨c :: l, line, col⟩ = .ok (token, s')) : ∀ t ∈ token, Lexeme t.ty t.value := by
  have hsome : ∀ {t : Token}, Lexeme t.ty t.value → ∀ t' ∈ some t, Lexeme t'.ty t'.value :=
    fun ht t' ht' ↦ Option.some.inj ht' ▸ ht
  have hnone : ∀ t ∈ (none : Option Token), Lexeme t.ty t.value := fun _ ht ↦ by cases ht
  rw [lexStep] at h
  split_ifs at h with hnl hws hline hblock hdigit hquote hchar hident
  · cases h
    exact hnone
  · cases h
    exact hnone
  · cases h
    exact hnone
  · cases h
    exact hnone
  · cases h
    exact hsome (lexeme_lexNumber hdigit)
  · split at h
    · cases h
      exact hsome (.string _)
    · cases h
  · cases h
    exact hsome (.char _)
  · cases h
    exact hsome (lexeme_lexIdent hident)
  · cases hop : lexOperator c ⟨c :: l, line, col⟩ with
    | error e =>
      rw [hop] at h
      cases h
    | ok r =>
      rw [hop] at h
      cases h
      exact hsome (lexeme_lexOperator hop)

/-- Tokens with texts, and the mark at the end. -/
def Spelled (toks : List Token) : Prop :=
  ∃ init eof, toks = init ++ [eof] ∧ eof.kind = (.eof, "") ∧ ∀ t ∈ init, Lexeme t.ty t.value

theorem spelled_lexLoop {fuel : ℕ} {s : LexState} {tokens toks : List Token}
    (h : lexLoop fuel s tokens = some (.ok toks)) (htokens : ∀ t ∈ tokens, Lexeme t.ty t.value) :
    Spelled toks := by
  induction fuel generalizing s tokens with
  | zero => cases h
  | succ fuel ih =>
    obtain ⟨l, line, col⟩ := s
    rw [lexLoop] at h
    cases l with
    | nil =>
      cases h
      exact ⟨tokens, ⟨.eof, "", line, col⟩, rfl, rfl, htokens⟩
    | cons c l =>
      dsimp only at h
      split at h
      · cases h
      · rename_i hstep
        refine ih h (List.forall_mem_append.mpr ⟨htokens, fun t ht ↦ ?_⟩)
        exact lexeme_lexStep hstep t (Option.mem_toList.mp ht)

theorem spelled_tokenize {src : String} {toks : List Token}
    (h : tokenize src = some (.ok toks)) : Spelled toks :=
  spelled_lexLoop h fun _ ht ↦ by cases ht

/-! ## The normal form -/

theorem lexes_respell {toks : List Token} (h : ∀ t ∈ toks, Lexeme t.ty t.value)
    (rest : List Char) :
    Lexes (toks.flatMap fun t ↦ spell t.kind ++ [' ']) (toks.map Token.kind) rest := by
  induction toks with
  | nil => exact .nil
  | cons t toks ih =>
    obtain ⟨ht, htoks⟩ := List.forall_mem_cons.mp h
    rw [List.flatMap_cons, List.map_cons, List.append_assoc]
    exact ht.lexes.append (.append lexes_space (ih htoks))

/-- **Written down again, tokens are read as they were.** -/
theorem Spelled.tokenize_respell {toks : List Token} (h : Spelled toks) :
    ∃ toks', tokenize (respell toks) = some (.ok toks') ∧
      toks'.map Token.kind = toks.map Token.kind := by
  obtain ⟨init, eof, rfl, heof, hinit⟩ := h
  have hlexes : Lexes (respell (init ++ [eof])).toList (init.map Token.kind) [] := by
    rw [respell, String.toList_ofList, List.flatMap_append, List.flatMap_singleton, heof,
      ← List.append_nil (init.map Token.kind)]
    exact (lexes_respell hinit _).append lexes_space
  obtain ⟨toks', eof', htoks', hkinds, heof'⟩ := hlexes.tokenize
  refine ⟨toks' ++ [eof'], htoks', ?_⟩
  rw [List.map_append, List.map_append, hkinds, List.map_singleton, List.map_singleton, heof, heof']

/-- The text depends on nothing but what the parser reads. -/
theorem respell_congr {toks toks' : List Token}
    (h : toks.map Token.kind = toks'.map Token.kind) : respell toks = respell toks' := by
  have hmap : ∀ toks : List Token, toks.flatMap (fun t ↦ spell t.kind ++ [' '])
      = (toks.map Token.kind).flatMap fun k ↦ spell k ++ [' '] := fun toks ↦ by
    rw [List.flatMap_map]
  rw [respell, respell, hmap, hmap, h]

end Agex

end Zeroxos
