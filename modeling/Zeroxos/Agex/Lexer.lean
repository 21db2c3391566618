import Mathlib.Data.List.Basic
import Mathlib.Order.Nat
import Mathlib.Tactic.Common

/-!
# The agex lexer

`tokenize` goes over the characters of the source once. A round of its loop skips white space or a
comment, or reads one token; what the source has as an index into the characters is here the list of
the characters from there on.

## Rounds

Every round reads at least one character, so as many rounds as there are characters are enough, and
the loop is given one more (`tokenize_spec`). A round is `lexStep`, and whatever is known of a
source is first known of a round.

## Tokens

A token has a type, a text and a place. The type and the text are its `kind`, and nothing that comes
after the lexer depends on more, but for the place in an error. A token vector that `tokenize`
returns ends with an `Eof` token and contains no other.
-/

namespace Zeroxos

namespace Agex

inductive TokenType
  -- keywords
  | letKw | constKw | varKw | fnKw | returnKw | ifKw | elseKw | forKw | inKw | rangeKw | matchKw
  | classKw | dataKw | sealedKw | interfaceKw | objectKw | driverKw | asyncKw | awaitKw
  | unsafeKw | externKw | importKw | printKw | interruptKw | capabilityKw
  -- literals
  | intLiteral | floatLiteral | stringLiteral | charLiteral
  | ident
  -- operators
  | arrow | fatArrow | assign | plusEq | minusEq | starEq | slashEq
  | plus | minus | star | slash | percent
  | eq | neq | lt | le | gt | ge
  | and | or | not
  | amp | pipe
  | question
  | ellipsis
  -- punctuation
  | lBrace | rBrace | lParen | rParen | lBracket | rBracket
  | comma | colon | semicolon | dot
  -- special
  | eof
deriving DecidableEq, Repr

/-- `{:?}` of a token type. -/
def TokenType.debug : TokenType → String
  | letKw => "Let" | constKw => "Const" | varKw => "Var" | fnKw => "Fn" | returnKw => "Return"
  | ifKw => "If" | elseKw => "Else" | forKw => "For" | inKw => "In" | rangeKw => "Range"
  | matchKw => "Match" | classKw => "Class" | dataKw => "Data" | sealedKw => "Sealed"
  | interfaceKw => "Interface" | objectKw => "Object" | driverKw => "Driver" | asyncKw => "Async"
  | awaitKw => "Await" | unsafeKw => "Unsafe" | externKw => "Extern" | importKw => "Import"
  | printKw => "Print" | interruptKw => "Interrupt" | capabilityKw => "Capability"
  | intLiteral => "IntLiteral" | floatLiteral => "FloatLiteral" | stringLiteral => "StringLiteral"
  | charLiteral => "CharLiteral" | ident => "Ident" | arrow => "Arrow" | fatArrow => "FatArrow"
  | assign => "Assign" | plusEq => "PlusEq" | minusEq => "MinusEq" | starEq => "StarEq"
  | slashEq => "SlashEq" | plus => "Plus" | minus => "Minus" | star => "Star" | slash => "Slash"
  | percent => "Percent" | eq => "Eq" | neq => "Neq" | lt => "LT" | le => "LE" | gt => "GT"
  | ge => "GE" | and => "And" | or => "Or" | not => "Not" | amp => "Amp" | pipe => "Pipe"
  | question => "Question" | ellipsis => "Ellipsis" | lBrace => "LBrace" | rBrace => "RBrace"
  | lParen => "LParen" | rParen => "RParen" | lBracket => "LBracket" | rBracket => "RBracket"
  | comma => "Comma" | colon => "Colon" | semicolon => "Semicolon" | dot => "Dot" | eof => "Eof"

structure Token where
  ty : TokenType
  value : String
  line : ℕ
  col : ℕ
deriving DecidableEq, Repr

inductive LexerError
  | unexpectedChar (char : Char) (line col : ℕ)
  | unterminatedString (line col : ℕ)
deriving DecidableEq, Repr

def keywords : List (String × TokenType) :=
  [("let", .letKw), ("const", .constKw), ("var", .varKw), ("fn", .fnKw), ("return", .returnKw),
    ("if", .ifKw), ("else", .elseKw), ("for", .forKw), ("in", .inKw), ("range", .rangeKw),
    ("match", .matchKw), ("class", .classKw), ("data", .dataKw), ("sealed", .sealedKw),
    ("interface", .interfaceKw), ("object", .objectKw), ("driver", .driverKw),
    ("async", .asyncKw), ("await", .awaitKw), ("unsafe", .unsafeKw), ("extern", .externKw),
    ("import", .importKw), ("print", .printKw), ("interrupt", .interruptKw),
    ("capability", .capabilityKw)]

/-! ## Characters -/

/-- `char::is_whitespace`: the characters with the property White_Space. -/
def isWhitespace (c : Char) : Bool :=
  (9 ≤ c.toNat && c.toNat ≤ 13) || c.toNat = 32 || c.toNat = 0x85 || c.toNat = 0xA0
    || c.toNat = 0x1680 || (0x2000 ≤ c.toNat && c.toNat ≤ 0x200A) || c.toNat = 0x2028
    || c.toNat = 0x2029 || c.toNat = 0x202F || c.toNat = 0x205F || c.toNat = 0x3000

def isAsciiDigit (c : Char) : Bool := '0' ≤ c && c ≤ '9'

def isAsciiAlphabetic (c : Char) : Bool := ('a' ≤ c && c ≤ 'z') || ('A' ≤ c && c ≤ 'Z')

def isAsciiAlphanumeric (c : Char) : Bool := isAsciiAlphabetic c || isAsciiDigit c

/-- What the loops over the digits of a number accept. -/
def isDigitOrUnderscore (c : Char) : Bool := isAsciiDigit c || c = '_'

/-- What the loop over the characters of an identifier accepts. -/
def isIdentChar (c : Char) : Bool := isAsciiAlphanumeric c || c = '_'

/-! ## One round -/

/-- The characters not read yet, and the position of the first of them. -/
structure LexState where
  rest : List Char
  line : ℕ
  col : ℕ
deriving DecidableEq, Repr

/-- The loop over a block comment: it stops at the closing characters, or at the last character. -/
def blockComment : List Char → ℕ → ℕ → LexState
  | a :: b :: rest, line, col =>
    if a = '*' ∧ b = '/' then ⟨rest, line, col + 2⟩
    else if a = '\n' then blockComment (b :: rest) (line + 1) 1
    else blockComment (b :: rest) line (col + 1)
  | rest, line, col => ⟨rest, line, col⟩

/-- A number: digits, a fraction, and a suffix. -/
def lexNumber (s : LexState) : Token × LexState :=
  let whole := s.rest.takeWhile isDigitOrUnderscore
  let rest := s.rest.dropWhile isDigitOrUnderscore
  let isFloat :=
    match rest with
    | '.' :: d :: _ => isAsciiDigit d
    | _ => false
  let fraction := if isFloat then '.' :: rest.tail.takeWhile isDigitOrUnderscore else []
  let rest := if isFloat then rest.tail.dropWhile isDigitOrUnderscore else rest
  let suffix := rest.takeWhile isAsciiAlphanumeric
  let num := whole ++ fraction ++ suffix
  (⟨if isFloat then .floatLiteral else .intLiteral, String.ofList num, s.line, s.col⟩,
    ⟨rest.dropWhile isAsciiAlphanumeric, s.line, s.col + num.length⟩)

/-- The character an escape stands for. A quote stands for itself, as anything else does. -/
def unescape (esc : Char) : Char :=
  match esc with
  | 'n' => '\n'
  | 't' => '\t'
  | 'r' => '\r'
  | '0' => '\x00'
  | other => other

/-- The loop over a string literal: its value, and what follows the closing quote; `none` without
one. -/
def stringBody : List Char → ℕ → ℕ → List Char → Option (List Char × LexState)
  | [], _, _, _ => none
  | '"' :: rest, line, col, acc => some (acc.reverse, ⟨rest, line, col + 1⟩)
  | '\\' :: esc :: rest, line, col, acc =>
    stringBody rest line (col + 2) (unescape esc :: acc)
  | c :: rest, line, col, acc =>
    if c = '\n' then stringBody rest (line + 1) 1 (c :: acc)
    else stringBody rest line (col + 1) (c :: acc)

/-- The loop over a character literal, which may end with the input and does not count lines. -/
def charBody : List Char → ℕ → ℕ → List Char → List Char × LexState
  | [], line, col, acc => (acc.reverse, ⟨[], line, col⟩)
  | '\'' :: rest, line, col, acc => (acc.reverse, ⟨rest, line, col + 1⟩)
  | '\\' :: esc :: rest, line, col, acc =>
    charBody rest line (col + 2) (unescape esc :: acc)
  | c :: rest, line, col, acc => charBody rest line (col + 1) (c :: acc)

/-- An identifier or a keyword. -/
def lexIdent (s : LexState) : Token × LexState :=
  let ident := s.rest.takeWhile isIdentChar
  let ty := ((keywords.find? fun k ↦ k.1 = String.ofList ident).map Prod.snd).getD .ident
  (⟨ty, String.ofList ident, s.line, s.col⟩,
    ⟨s.rest.dropWhile isIdentChar, s.line, s.col + ident.length⟩)

/-- The operators of two characters. -/
def twoTy (two : List Char) : Option TokenType :=
  match two with
  | ['-', '>'] => some .arrow
  | ['=', '>'] => some .fatArrow
  | ['=', '='] => some .eq
  | ['!', '='] => some .neq
  | ['<', '='] => some .le
  | ['>', '='] => some .ge
  | ['&', '&'] => some .and
  | ['|', '|'] => some .or
  | ['+', '='] => some .plusEq
  | ['-', '='] => some .minusEq
  | ['*', '='] => some .starEq
  | ['/', '='] => some .slashEq
  | _ => none

/-- The operators of one character. -/
def oneTy (c : Char) : Option TokenType :=
  match c with
  | '{' => some .lBrace
  | '}' => some .rBrace
  | '(' => some .lParen
  | ')' => some .rParen
  | '[' => some .lBracket
  | ']' => some .rBracket
  | ',' => some .comma
  | ':' => some .colon
  | ';' => some .semicolon
  | '.' => some .dot
  | '?' => some .question
  | '=' => some .assign
  | '+' => some .plus
  | '-' => some .minus
  | '*' => some .star
  | '/' => some .slash
  | '%' => some .percent
  | '<' => some .lt
  | '>' => some .gt
  | '!' => some .not
  | '&' => some .amp
  | '|' => some .pipe
  | _ => none

/-- An operator or punctuation: the longest that fits. -/
def lexOperator (c : Char) (s : LexState) : Except LexerError (Token × LexState) :=
  let three := s.rest.take 3
  if three = ['.', '.', '.'] then
    .ok (⟨.ellipsis, "...", s.line, s.col⟩, ⟨s.rest.drop 3, s.line, s.col + 3⟩)
  else
    let two := s.rest.take 2
    match twoTy two with
    | some ty => .ok (⟨ty, String.ofList two, s.line, s.col⟩, ⟨s.rest.drop 2, s.line, s.col + 2⟩)
    | none =>
      match oneTy c with
      | some ty => .ok (⟨ty, c.toString, s.line, s.col⟩, ⟨s.rest.drop 1, s.line, s.col + 1⟩)
      | none => .error (.unexpectedChar c s.line s.col)

/-- A round of the loop, with `c` the next character: the token it pushes, if any. -/
def lexStep (c : Char) (s : LexState) : Except LexerError (Option Token × LexState) :=
  if c = '\n' then .ok (none, ⟨s.rest.tail, s.line + 1, 1⟩)
  else if isWhitespace c then .ok (none, ⟨s.rest.tail, s.line, s.col + 1⟩)
  else if s.rest.take 2 = ['/', '/'] then
    -- the column is left alone
    .ok (none, ⟨s.rest.dropWhile fun c ↦ c ≠ '\n', s.line, s.col⟩)
  else if s.rest.take 2 = ['/', '*'] then
    .ok (none, blockComment (s.rest.drop 2) s.line (s.col + 2))
  else if isAsciiDigit c then .ok ((lexNumber s).map some id)
  else if c = '"' then
    match stringBody s.rest.tail s.line (s.col + 1) [] with
    | some (value, s') => .ok (some ⟨.stringLiteral, String.ofList value, s.line, s.col⟩, s')
    | none => .error (.unterminatedString s.line s.col)
  else if c = '\'' then
    let body := charBody s.rest.tail s.line (s.col + 1) []
    .ok (some ⟨.charLiteral, String.ofList body.1, s.line, s.col⟩, body.2)
  else if isAsciiAlphabetic c || c = '_' then .ok ((lexIdent s).map some id)
  else (lexOperator c s).map (Prod.map some id)

/-! ## `tokenize` -/

/-- The loop of `tokenize`, for at most so many rounds; `none` when they are not enough. -/
def lexLoop : ℕ → LexState → List Token → Option (Except LexerError (List Token))
  | 0, _, _ => none
  | fuel + 1, s, tokens =>
    match s.rest with
    | [] => some (.ok (tokens ++ [⟨.eof, "", s.line, s.col⟩]))
    | c :: _ =>
      match lexStep c s with
      | .error e => some (.error e)
      | .ok (token, s') => lexLoop fuel s' (tokens ++ token.toList)

def tokenize (src : String) : Option (Except LexerError (List Token)) :=
  lexLoop (src.toList.length + 1) ⟨src.toList, 1, 1⟩ []

/-! ## Every round reads something -/

theorem length_dropWhile_le {p : Char → Bool} (l : List Char) :
    (l.dropWhile p).length ≤ l.length := (List.dropWhile_sublist p).length_le

theorem length_dropWhile_lt {p : Char → Bool} {c : Char} {l : List Char} (hc : p c = true) :
    ((c :: l).dropWhile p).length < (c :: l).length := by
  rw [List.dropWhile_cons_of_pos hc, List.length_cons]
  exact Nat.lt_succ_of_le (length_dropWhile_le l)

theorem blockComment_length (l : List Char) (line col : ℕ) :
    (blockComment l line col).rest.length ≤ l.length := by
  fun_induction blockComment l line col with
  | case1 a b rest line col h => exact (Nat.le_succ _).trans (Nat.le_succ _)
  | case2 b rest line col h ih => exact ih.trans (Nat.le_succ _)
  | case3 a b rest line col h h' ih => exact ih.trans (Nat.le_succ _)
  | case4 rest line col => exact le_rfl

theorem stringBody_length {l : List Char} {line col : ℕ} {acc v : List Char} {s : LexState}
    (h : stringBody l line col acc = some (v, s)) : s.rest.length < l.length := by
  fun_induction stringBody l line col acc with
  | case1 => cases h
  | case2 =>
    cases h
    exact Nat.lt_succ_self _
  | case3 line col acc esc rest ih => exact (ih h).trans (Nat.lt_succ_of_lt (Nat.lt_succ_self _))
  | case4 line col acc rest _ _ ih => exact (ih h).trans (Nat.lt_succ_self _)
  | case5 line col acc c rest _ _ _ ih => exact (ih h).trans (Nat.lt_succ_self _)

theorem charBody_length (l : List Char) (line col : ℕ) (acc : List Char) :
    (charBody l line col acc).2.rest.length ≤ l.length := by
  fun_induction charBody l line col acc with
  | case1 => exact le_rfl
  | case2 => exact Nat.le_succ _
  | case3 line col acc esc rest ih => exact ih.trans ((Nat.le_succ _).trans (Nat.le_succ _))
  | case4 line col acc c rest _ _ ih => exact ih.trans (Nat.le_succ _)

theorem lexNumber_spec {c : Char} (l : List Char) (line col : ℕ) (hc : isAsciiDigit c = true) :
    (lexNumber ⟨c :: l, line, col⟩).2.rest.length < (c :: l).length
      ∧ (lexNumber ⟨c :: l, line, col⟩).1.ty ≠ .eof := by
  have hlt := length_dropWhile_lt (l := l) (show isDigitOrUnderscore c = true by
    rw [isDigitOrUnderscore, hc, Bool.true_or])
  refine ⟨?_, ?_⟩
  · rw [lexNumber]
    dsimp only
    refine (length_dropWhile_le _).trans_lt ?_
    split_ifs
    · refine ((length_dropWhile_le _).trans ?_).trans_lt hlt
      rw [List.length_tail]
      exact Nat.sub_le _ 1
    · exact hlt
  · rw [lexNumber]
    dsimp only
    split_ifs <;> decide

theorem lexIdent_spec {c : Char} (l : List Char) (line col : ℕ) (hc : isIdentChar c = true) :
    (lexIdent ⟨c :: l, line, col⟩).2.rest.length < (c :: l).length
      ∧ (lexIdent ⟨c :: l, line, col⟩).1.ty ≠ .eof := by
  refine ⟨length_dropWhile_lt hc, ?_⟩
  have hkeywords : ∀ k ∈ keywords, k.2 ≠ .eof := by decide
  rw [lexIdent]
  dsimp only
  cases hfind : keywords.find? _ with
  | none => decide
  | some k => exact hkeywords k (List.mem_of_find?_eq_some hfind)

/-- The operators of one character, listed. -/
def oneOperators : List (Char × TokenType) :=
  [('{', .lBrace), ('}', .rBrace), ('(', .lParen), (')', .rParen), ('[', .lBracket),
    (']', .rBracket), (',', .comma), (':', .colon), (';', .semicolon), ('.', .dot),
    ('?', .question), ('=', .assign), ('+', .plus), ('-', .minus), ('*', .star), ('/', .slash),
    ('%', .percent), ('<', .lt), ('>', .gt), ('!', .not), ('&', .amp), ('|', .pipe)]

/-- The operators of two characters, listed. -/
def twoOperators : List (List Char × TokenType) :=
  [(['-', '>'], .arrow), (['=', '>'], .fatArrow), (['=', '='], .eq), (['!', '='], .neq),
    (['<', '='], .le), (['>', '='], .ge), (['&', '&'], .and), (['|', '|'], .or),
    (['+', '='], .plusEq), (['-', '='], .minusEq), (['*', '='], .starEq), (['/', '='], .slashEq)]

theorem mem_oneOperators {c : Char} {ty : TokenType} (h : oneTy c = some ty) :
    (c, ty) ∈ oneOperators := by
  unfold oneTy at h
  split at h <;> cases h <;> decide

theorem mem_twoOperators {two : List Char} {ty : TokenType} (h : twoTy two = some ty) :
    (two, ty) ∈ twoOperators := by
  unfold twoTy at h
  split at h <;> cases h <;> decide

theorem twoTy_ne_eof {l : List Char} {ty : TokenType} (h : twoTy l = some ty) : ty ≠ .eof := by
  have hall : ∀ p ∈ twoOperators, p.2 ≠ .eof := by decide
  exact hall _ (mem_twoOperators h)

theorem oneTy_ne_eof {c : Char} {ty : TokenType} (h : oneTy c = some ty) : ty ≠ .eof := by
  have hall : ∀ p ∈ oneOperators, p.2 ≠ .eof := by decide
  exact hall _ (mem_oneOperators h)

theorem lexOperator_spec {c : Char} {l : List Char} {line col : ℕ} {t : Token} {s : LexState}
    (h : lexOperator c ⟨c :: l, line, col⟩ = .ok (t, s)) :
    s.rest.length < (c :: l).length ∧ t.ty ≠ .eof := by
  have hdrop : ∀ n, 0 < n → ((c :: l).drop n).length < (c :: l).length := by
    intro n hn
    rw [List.length_drop, List.length_cons]
    omega
  rw [lexOperator] at h
  dsimp only at h
  split_ifs at h
  · cases h
    exact ⟨hdrop 3 (by omega), nofun⟩
  split at h
  · rename_i ty hty
    cases h
    exact ⟨hdrop 2 (by omega), twoTy_ne_eof hty⟩
  split at h
  · rename_i ty hty
    cases h
    exact ⟨hdrop 1 (by omega), oneTy_ne_eof hty⟩
  · cases h

/-- **A round of the lexer** reads at least one character and pushes no `Eof`. -/
theorem lexStep_spec {c : Char} {l : List Char} {line col : ℕ} {token : Option Token}
    {s : LexState} (h : lexStep c ⟨c :: l, line, col⟩ = .ok (token, s)) :
    s.rest.length < (c :: l).length ∧ ∀ t ∈ token, t.ty ≠ .eof := by
  have hnone : ∀ t ∈ (none : Option Token), t.ty ≠ .eof :=
    fun t ht ↦ absurd ht (Option.not_mem_none t)
  rw [lexStep] at h
  dsimp only at h
  split_ifs at h with hnl hws hline hblock hdigit hquote hchar hident
  · cases h
    exact ⟨Nat.lt_succ_self _, hnone⟩
  · cases h
    exact ⟨Nat.lt_succ_self _, hnone⟩
  · cases h
    exact ⟨length_dropWhile_lt (p := fun c ↦ c ≠ '\n') (decide_eq_true hnl), hnone⟩
  · cases h
    refine ⟨(blockComment_length _ _ _).trans_lt ?_, hnone⟩
    rw [List.length_drop, List.length_cons]
    omega
  · cases h
    obtain ⟨hlt, hty⟩ := lexNumber_spec l line col hdigit
    exact ⟨hlt, fun t ht ↦ Option.some.inj ht ▸ hty⟩
  · split at h
    · rename_i value s' hbody
      cases h
      refine ⟨(stringBody_length hbody).trans (Nat.lt_succ_self _), fun t ht ↦ ?_⟩
      cases ht
      nofun
    · cases h
  · cases h
    refine ⟨(charBody_length _ _ _ _).trans_lt (Nat.lt_succ_self _), fun t ht ↦ ?_⟩
    cases ht
    nofun
  · cases h
    have hc : isIdentChar c = true := by
      rw [Bool.or_eq_true] at hident
      rw [isIdentChar, isAsciiAlphanumeric]
      rcases hident with h | h
      · rw [h, Bool.true_or, Bool.true_or]
      · rw [h, Bool.or_true]
    obtain ⟨hlt, hty⟩ := lexIdent_spec l line col hc
    exact ⟨hlt, fun t ht ↦ Option.some.inj ht ▸ hty⟩
  · cases hop : lexOperator c ⟨c :: l, line, col⟩ with
    | error e =>
      rw [hop] at h
      cases h
    | ok r =>
      rw [hop] at h
      cases h
      obtain ⟨hlt, hty⟩ := lexOperator_spec (t := r.1) (s := r.2) hop
      exact ⟨hlt, fun t ht ↦ Option.some.inj ht ▸ hty⟩

/-! ## What `tokenize` returns -/

/-- The last token is the only `Eof`. -/
def EndsWithEof (toks : List Token) : Prop :=
  ∃ init last, toks = init ++ [last] ∧ last.ty = .eof ∧ ∀ t ∈ init, t.ty ≠ .eof

theorem lexLoop_spec {fuel : ℕ} {s : LexState} {tokens : List Token}
    (hfuel : s.rest.length < fuel) (htokens : ∀ t ∈ tokens, t.ty ≠ .eof) :
    ∃ r, lexLoop fuel s tokens = some r ∧ ∀ toks, r = .ok toks → EndsWithEof toks := by
  induction fuel generalizing s tokens with
  | zero => exact absurd hfuel (Nat.not_lt_zero _)
  | succ fuel ih =>
    obtain ⟨rest, line, col⟩ := s
    cases rest with
    | nil =>
      refine ⟨_, rfl, fun toks htoks ↦ ?_⟩
      cases htoks
      exact ⟨tokens, _, rfl, rfl, htokens⟩
    | cons c l =>
      rw [lexLoop]
      dsimp only
      cases hstep : lexStep c ⟨c :: l, line, col⟩ with
      | error e => exact ⟨.error e, rfl, nofun⟩
      | ok r =>
        obtain ⟨token, s'⟩ := r
        obtain ⟨hlt, htoken⟩ := lexStep_spec hstep
        refine ih (lt_of_lt_of_le hlt (Nat.le_of_lt_succ hfuel)) fun t ht ↦ ?_
        rcases List.mem_append.mp ht with ht | ht
        · exact htokens t ht
        · exact htoken t (Option.mem_toList.mp ht)

/-- **The lexer is total**, and a token vector it returns has one `Eof`, at the end. -/
theorem tokenize_spec (src : String) :
    ∃ r, tokenize src = some r ∧ ∀ toks, r = .ok toks → EndsWithEof toks :=
  lexLoop_spec (Nat.lt_succ_self _) (fun _ h ↦ nomatch h)

end Agex

end Zeroxos
