import Mathlib.Data.List.TakeWhile
import Zeroxos.Agex.Relex

/-!
# Single tokens

What the lexer of agex makes of a name, a number or an operator, in front of whatever may follow. A
name or a number ends where a character does not belong to it, and a number moreover must not be
followed by a fraction; an operator must not make a longer one, or a comment, with what follows. In
the other direction every token of the lexer is written as its type says.
-/

namespace Zeroxos

namespace Agex

/-- What the parser reads of a token. -/
abbrev Kind : Type := TokenType × String

variable {cs cs' rest : List Char} {ks ks' : List Kind} {c d : Char} {ty : TokenType}

theorem Lexes.cons (h : Lexes [c] ks (cs ++ rest)) (h' : Lexes cs ks' rest) :
    Lexes (c :: cs) (ks ++ ks') rest := h.append h'

/-! ## Operators -/

/-- The lexer does not take the character for the beginning of something else than an operator. -/
def IsOperatorChar (c : Char) : Prop :=
  c ≠ '\n' ∧ isWhitespace c = false ∧ isAsciiDigit c = false ∧ c ≠ '"' ∧ c ≠ '\'' ∧
    (isAsciiAlphabetic c || c = '_') = false

instance : DecidablePred IsOperatorChar := fun _ ↦ inferInstanceAs (Decidable (_ ∧ _))

theorem isOperatorChar_of_oneTy (h : oneTy c = some ty) : IsOperatorChar c := by
  have hall : ∀ p ∈ oneOperators, IsOperatorChar p.1 := by decide
  exact hall _ (mem_oneOperators h)

theorem isOperatorChar_of_twoTy (h : twoTy [c, d] = some ty) : IsOperatorChar c := by
  have hall : ∀ p ∈ twoOperators, IsOperatorChar (p.1.headD ' ') := by decide
  exact hall _ (mem_twoOperators h)

theorem twoTy_eq_none {two : List Char} (h : ∀ p ∈ twoOperators, p.1 ≠ two) :
    twoTy two = none := by
  rcases hty : twoTy two with _ | ty
  · rfl
  · exact absurd rfl (h _ (mem_twoOperators hty))

theorem lexStep_operator {l : List Char} {line col : ℕ} (hc : IsOperatorChar c)
    (hcomment : c = '/' → ∀ d ∈ l.head?, d ≠ '/' ∧ d ≠ '*') :
    lexStep c ⟨c :: l, line, col⟩
      = (lexOperator c ⟨c :: l, line, col⟩).map (Prod.map some id) := by
  obtain ⟨hnl, hws, hdigit, hquote, hchar, halpha⟩ := hc
  have htake : ∀ d, (d = '/' ∨ d = '*') → (c :: l).take 2 ≠ ['/', d] := by
    intro d hd htake
    cases l with
    | nil => cases htake
    | cons e l =>
      cases htake
      have hne := hcomment rfl d rfl
      exact hd.elim hne.1 hne.2
  rw [lexStep, if_neg hnl, hws, hdigit, halpha, if_neg Bool.false_ne_true,
    if_neg (htake '/' (.inl rfl)), if_neg (htake '*' (.inr rfl)), if_neg Bool.false_ne_true,
    if_neg hquote, if_neg hchar, if_neg Bool.false_ne_true]

theorem lexes_one (hty : oneTy c = some ty) (htwo : ∀ d ∈ rest.head?, twoTy [c, d] = none)
    (hcomment : c = '/' → ∀ d ∈ rest.head?, d ≠ '/' ∧ d ≠ '*')
    (hdot : c = '.' → ∀ d ∈ rest.head?, d ≠ '.') : Lexes [c] [(ty, c.toString)] rest := by
  refine .of_step fun line col ↦ ⟨some ⟨ty, c.toString, line, col⟩, line, col + 1, rfl, ?_⟩
  have hthree : (c :: rest).take 3 ≠ ['.', '.', '.'] := by
    intro h
    cases rest with
    | nil => cases h
    | cons e l =>
      obtain ⟨hc, hrest⟩ := List.cons.inj h
      exact hdot hc e rfl (List.cons.inj hrest).1
  have hnone : twoTy ((c :: rest).take 2) = none := by
    cases rest with
    | nil =>
      refine twoTy_eq_none fun p hp ↦ ?_
      have htwo : ∀ p ∈ twoOperators, p.1.length = 2 := by decide
      exact fun h ↦ absurd (h ▸ htwo p hp) (by simp)
    | cons e l => exact htwo e rfl
  rw [List.cons_append, List.nil_append, lexStep_operator (isOperatorChar_of_oneTy hty) hcomment,
    lexOperator]
  dsimp only
  rw [if_neg hthree, hnone, hty]
  rfl

theorem lexes_two (hty : twoTy [c, d] = some ty) :
    Lexes [c, d] [(ty, String.ofList [c, d])] rest := by
  refine .of_step fun line col ↦
    ⟨some ⟨ty, String.ofList [c, d], line, col⟩, line, col + 2, rfl, ?_⟩
  have hnot : ∀ {c' d' : Char}, twoTy [c', d'] = none → ¬(c = c' ∧ d = d') := by
    rintro c' d' hnone ⟨rfl, rfl⟩
    rw [hnone] at hty
    cases hty
  have hcomment : c = '/' → ∀ e ∈ (d :: rest).head?, e ≠ '/' ∧ e ≠ '*' := by
    rintro rfl e he
    cases he
    exact ⟨fun h ↦ hnot rfl ⟨rfl, h⟩, fun h ↦ hnot rfl ⟨rfl, h⟩⟩
  have hthree : (c :: d :: rest).take 3 ≠ ['.', '.', '.'] := by
    intro h
    obtain ⟨rfl, hrest⟩ := List.cons.inj h
    obtain ⟨rfl, -⟩ := List.cons.inj hrest
    cases hty
  rw [List.cons_append, List.cons_append, List.nil_append,
    lexStep_operator (isOperatorChar_of_twoTy hty) hcomment, lexOperator]
  dsimp only
  rw [if_neg hthree]
  have htake : (c :: d :: rest).take 2 = [c, d] := rfl
  rw [htake, hty]
  rfl

theorem lexes_space : Lexes [' '] [] rest :=
  .of_step fun line col ↦ ⟨none, line, col + 1, rfl, rfl⟩

theorem twoTy_amp (h : c ≠ '&') : twoTy ['&', c] = none := by
  refine twoTy_eq_none ?_
  simp [twoOperators, h.symm]

theorem twoTy_not (h : c ≠ '=') : twoTy ['!', c] = none := by
  refine twoTy_eq_none ?_
  simp [twoOperators, h.symm]

theorem twoTy_minus (h : c ≠ '=' ∧ c ≠ '>') : twoTy ['-', c] = none := by
  refine twoTy_eq_none ?_
  simp [twoOperators, h.1.symm, h.2.symm]

theorem lexes_paren : Lexes ['('] [(.lParen, "(")] rest :=
  lexes_one rfl (fun _ _ ↦ rfl) (fun h ↦ absurd h (by decide)) fun h ↦ absurd h (by decide)

theorem lexes_close : Lexes [')'] [(.rParen, ")")] rest :=
  lexes_one rfl (fun _ _ ↦ rfl) (fun h ↦ absurd h (by decide)) fun h ↦ absurd h (by decide)

theorem lexes_comma : Lexes [','] [(.comma, ",")] rest :=
  lexes_one rfl (fun _ _ ↦ rfl) (fun h ↦ absurd h (by decide)) fun h ↦ absurd h (by decide)

/-! ## Names and numbers -/

/-- Digits and a suffix. -/
def IsInt (value : String) : Prop :=
  ∃ whole suffix, value.toList = whole ++ suffix ∧ (∃ d ∈ whole.head?, isAsciiDigit d = true) ∧
    (∀ c ∈ whole, isDigitOrUnderscore c = true) ∧ (∀ c ∈ suffix, isAsciiAlphanumeric c = true) ∧
    ∀ c ∈ suffix.head?, isDigitOrUnderscore c = false

/-- Digits, a fraction, and a suffix. -/
def IsFloat (value : String) : Prop :=
  ∃ whole fraction suffix, value.toList = whole ++ '.' :: fraction ++ suffix ∧
    (∃ d ∈ whole.head?, isAsciiDigit d = true) ∧ (∃ d ∈ fraction.head?, isAsciiDigit d = true) ∧
    (∀ c ∈ whole, isDigitOrUnderscore c = true) ∧ (∀ c ∈ fraction, isDigitOrUnderscore c = true) ∧
    (∀ c ∈ suffix, isAsciiAlphanumeric c = true) ∧ ∀ c ∈ suffix.head?, isDigitOrUnderscore c = false

/-- A name that is no keyword. -/
structure IsName (name : String) : Prop where
  first : ∃ c ∈ name.toList.head?, (isAsciiAlphabetic c || c = '_') = true
  chars : ∀ c ∈ name.toList, isIdentChar c = true
  notKeyword : ∀ k ∈ keywords, k.1 ≠ name

theorem IsName.notMem {name : String} (h : IsName name) {c : Char} (hc : isIdentChar c = false) :
    c ∉ name.toList := fun hmem ↦ Bool.false_ne_true (hc.symm.trans (h.chars c hmem))

theorem span_append {p : Char → Bool} (hcs : ∀ c ∈ cs, p c = true)
    (hrest : ∀ c ∈ rest.head?, p c = false) :
    (cs ++ rest).takeWhile p = cs ∧ (cs ++ rest).dropWhile p = rest := by
  rw [List.takeWhile_append_of_pos hcs, List.dropWhile_append_of_pos hcs]
  cases rest with
  | nil => exact ⟨List.append_nil cs, rfl⟩
  | cons c rest =>
    have hc : ¬p c = true := Bool.eq_false_iff.mp (hrest c rfl)
    rw [List.takeWhile_cons_of_neg hc, List.dropWhile_cons_of_neg hc]
    exact ⟨List.append_nil cs, rfl⟩

theorem toNat_of_letter (hc : (isAsciiAlphabetic c || c = '_') = true) :
    65 ≤ c.toNat ∧ c.toNat ≤ 122 := by
  rw [isAsciiAlphabetic] at hc
  simp only [Bool.or_eq_true, Bool.and_eq_true, decide_eq_true_eq, Char.le_def,
    UInt32.le_iff_toNat_le] at hc
  rcases hc with (⟨hlow, hhigh⟩ | ⟨hlow, hhigh⟩) | rfl
  · exact ⟨le_trans (by decide) hlow, hhigh⟩
  · exact ⟨hlow, le_trans hhigh (by decide)⟩
  · decide

theorem toNat_of_digit (hc : isAsciiDigit c = true) : 48 ≤ c.toNat ∧ c.toNat ≤ 57 := by
  rw [isAsciiDigit] at hc
  simp only [Bool.and_eq_true, decide_eq_true_eq, Char.le_def, UInt32.le_iff_toNat_le] at hc
  exact hc

theorem isWhitespace_of_toNat (h : 48 ≤ c.toNat ∧ c.toNat ≤ 122) : isWhitespace c = false := by
  rw [isWhitespace]
  simp only [Bool.or_eq_false_iff, Bool.and_eq_false_iff, decide_eq_false_iff_not]
  omega

theorem ne_of_toNat (h : c.toNat ≠ d.toNat) : c ≠ d := fun heq ↦ h (congrArg Char.toNat heq)

theorem lexStep_name {l : List Char} {line col : ℕ}
    (hc : (isAsciiAlphabetic c || c = '_') = true) :
    lexStep c ⟨c :: l, line, col⟩ = .ok ((lexIdent ⟨c :: l, line, col⟩).map some id) := by
  have hnat := toNat_of_letter hc
  have hne : ∀ d : Char, d.toNat < 65 → c ≠ d := fun d hd ↦ ne_of_toNat (by omega)
  have hdigit : ¬isAsciiDigit c = true := fun hdigit ↦ by
    have hnat' := toNat_of_digit hdigit
    omega
  have hslash : ∀ d, (c :: l).take 2 ≠ ['/', d] := fun d h ↦
    hne '/' (by decide) (List.cons.inj h).1
  rw [lexStep, if_neg (hne '\n' (by decide)), isWhitespace_of_toNat ⟨by omega, hnat.2⟩,
    if_neg Bool.false_ne_true, if_neg (hslash '/'), if_neg (hslash '*'), if_neg hdigit,
    if_neg (hne '"' (by decide)), if_neg (hne '\'' (by decide)), if_pos hc]

theorem lexes_name {name : String} (h : IsName name)
    (hrest : ∀ c ∈ rest.head?, isIdentChar c = false) :
    Lexes name.toList [(.ident, name)] rest := by
  obtain ⟨⟨c, hc, hfirst⟩, hchars, hkeyword⟩ := h
  obtain ⟨htake, hdrop⟩ := span_append hchars hrest
  have hfind : keywords.find? (fun k ↦ k.1 = name) = none :=
    List.find?_eq_none.mpr fun k hk ↦ by simpa using hkeyword k hk
  obtain ⟨l, hname⟩ : ∃ l, name.toList = c :: l := List.head?_eq_some_iff.mp hc
  rw [hname] at htake hdrop ⊢
  refine .of_step fun line col ↦
    ⟨some ⟨.ident, name, line, col⟩, line, col + (c :: l).length, rfl, ?_⟩
  rw [List.cons_append] at htake hdrop ⊢
  rw [lexStep_name hfirst, lexIdent]
  dsimp only
  rw [htake, hdrop, ← hname, String.ofList_toList, hfind]
  rfl

theorem lexStep_number {l : List Char} {line col : ℕ} (hc : isAsciiDigit c = true) :
    lexStep c ⟨c :: l, line, col⟩ = .ok ((lexNumber ⟨c :: l, line, col⟩).map some id) := by
  have hnat := toNat_of_digit hc
  have hne : ∀ d : Char, d.toNat < 48 → c ≠ d := fun d hd ↦ ne_of_toNat (by omega)
  have hslash : ∀ d, (c :: l).take 2 ≠ ['/', d] := fun d h ↦
    hne '/' (by decide) (List.cons.inj h).1
  rw [lexStep, if_neg (hne '\n' (by decide)), isWhitespace_of_toNat ⟨hnat.1, by omega⟩,
    if_neg Bool.false_ne_true, if_neg (hslash '/'), if_neg (hslash '*'), if_pos hc]

/-- What can stand behind an expression: neither a character that would belong to its last token,
nor a fraction. -/
def EndsText (rest : List Char) : Prop :=
  (∀ c ∈ rest.head?, isIdentChar c = false) ∧
    ∀ d l, rest = '.' :: d :: l → isAsciiDigit d = false

theorem isIdentChar_of_digit (h : isDigitOrUnderscore c = true) : isIdentChar c = true := by
  rw [isIdentChar, isAsciiAlphanumeric]
  rw [isDigitOrUnderscore] at h
  cases hd : isAsciiDigit c
  · rw [hd, Bool.false_or] at h
    rw [h, Bool.or_true]
  · rw [Bool.or_true, Bool.true_or]

theorem isIdentChar_of_alphanumeric (h : isAsciiAlphanumeric c = true) : isIdentChar c = true := by
  rw [isIdentChar, h, Bool.true_or]

theorem head_suffix {suffix : List Char}
    (hsuffix : ∀ c ∈ suffix.head?, isDigitOrUnderscore c = false) (hrest : EndsText rest) :
    ∀ c ∈ (suffix ++ rest).head?, isDigitOrUnderscore c = false := by
  intro c hc
  cases suffix with
  | cons c' suffix => exact hsuffix c hc
  | nil =>
    refine Bool.eq_false_iff.mpr fun hdigit ↦ ?_
    have hfalse := hrest.1 c hc
    rw [isIdentChar_of_digit hdigit] at hfalse
    cases hfalse

theorem span_suffix {suffix : List Char} (hsuffix : ∀ c ∈ suffix, isAsciiAlphanumeric c = true)
    (hrest : EndsText rest) : (suffix ++ rest).takeWhile isAsciiAlphanumeric = suffix ∧
      (suffix ++ rest).dropWhile isAsciiAlphanumeric = rest := by
  refine span_append hsuffix fun c hc ↦ Bool.eq_false_iff.mpr fun halpha ↦ ?_
  have hfalse := hrest.1 c hc
  rw [isIdentChar_of_alphanumeric halpha] at hfalse
  cases hfalse

theorem lexes_number {value : String} (hvalue : ∃ d ∈ value.toList.head?, isAsciiDigit d = true)
    (hrun : ∀ line col, ∃ col', lexNumber ⟨value.toList ++ rest, line, col⟩
      = (⟨ty, value, line, col⟩, ⟨rest, line, col'⟩)) :
    Lexes value.toList [(ty, value)] rest := by
  obtain ⟨d, hd, hdigit⟩ := hvalue
  obtain ⟨l, hl⟩ : ∃ l, value.toList = d :: l := List.head?_eq_some_iff.mp hd
  rw [hl] at hrun ⊢
  refine .of_step fun line col ↦ ?_
  obtain ⟨col', hnumber⟩ := hrun line col
  refine ⟨some ⟨ty, value, line, col⟩, line, col', rfl, ?_⟩
  rw [List.cons_append] at hnumber ⊢
  rw [lexStep_number hdigit, hnumber]
  rfl

theorem head_append_of_mem {l l' : List Char} (h : ∃ d ∈ l.head?, isAsciiDigit d = true) :
    ∃ d ∈ (l ++ l').head?, isAsciiDigit d = true := by
  obtain ⟨d, hd, hdigit⟩ := h
  exact ⟨d, by rw [List.head?_append, hd]; rfl, hdigit⟩

theorem lexes_int {value : String} (h : IsInt value) (hrest : EndsText rest) :
    Lexes value.toList [(.intLiteral, value)] rest := by
  obtain ⟨whole, suffix, hvalue, hdigit, hwhole, hsuffix, hhead⟩ := h
  refine lexes_number (hvalue ▸ head_append_of_mem hdigit) fun line col ↦
    ⟨col + value.toList.length, ?_⟩
  obtain ⟨htake, hdrop⟩ := span_append hwhole (head_suffix hhead hrest)
  obtain ⟨htake', hdrop'⟩ := span_suffix hsuffix hrest
  have hsplit : value.toList ++ rest = whole ++ (suffix ++ rest) := by
    rw [hvalue, List.append_assoc]
  rw [lexNumber, hsplit]
  dsimp only
  rw [htake, hdrop]
  split_ifs with hfloat
  · -- no fraction begins behind the digits
    exfalso
    split at hfloat
    · rename_i d l heq
      cases suffix with
      | nil => exact Bool.false_ne_true ((hrest.2 d l heq).symm.trans hfloat)
      | cons c suffix =>
        obtain rfl : c = '.' := (List.cons.inj heq).1
        exact absurd (hsuffix _ List.mem_cons_self) (by decide)
    · cases hfloat
  · rw [htake', hdrop', List.append_nil, ← hvalue, String.ofList_toList]

theorem lexes_float {value : String} (h : IsFloat value) (hrest : EndsText rest) :
    Lexes value.toList [(.floatLiteral, value)] rest := by
  obtain ⟨whole, fraction, suffix, hvalue, hdigit, ⟨d, hd, hfraction⟩, hwhole, hdigits, hsuffix,
    hhead⟩ := h
  rw [List.append_assoc, List.cons_append] at hvalue
  refine lexes_number (hvalue ▸ head_append_of_mem hdigit) fun line col ↦
    ⟨col + value.toList.length, ?_⟩
  have hdot : ∀ c ∈ ('.' :: (fraction ++ (suffix ++ rest))).head?,
      isDigitOrUnderscore c = false := by
    intro c hc
    cases hc
    decide
  obtain ⟨htake, hdrop⟩ := span_append hwhole hdot
  obtain ⟨htake', hdrop'⟩ := span_append hdigits (head_suffix hhead hrest)
  obtain ⟨htake'', hdrop''⟩ := span_suffix hsuffix hrest
  have hsplit : value.toList ++ rest = whole ++ '.' :: (fraction ++ (suffix ++ rest)) := by
    rw [hvalue]
    simp only [List.append_assoc, List.cons_append]
  rw [lexNumber, hsplit]
  dsimp only
  rw [htake, hdrop]
  split_ifs with hfloat
  · dsimp only [List.tail_cons]
    rw [htake', hdrop', htake'', hdrop'', List.append_assoc, List.cons_append, ← hvalue,
      String.ofList_toList]
  · obtain ⟨l, rfl⟩ : ∃ l, fraction = d :: l := List.head?_eq_some_iff.mp hd
    exact absurd hfraction hfloat

theorem lexes_dot {name : String} (h : IsName name) :
    Lexes ['.'] [(.dot, ".")] (name.toList ++ rest) := by
  obtain ⟨c, hc, hfirst⟩ := h.first
  have hhead : ∀ d ∈ (name.toList ++ rest).head?, d ≠ '.' := by
    intro d hd
    rw [List.head?_append, hc] at hd
    cases hd
    rintro rfl
    exact absurd hfirst (by decide)
  exact lexes_one rfl (fun _ _ ↦ rfl) (fun heq ↦ absurd heq (by decide)) fun _ ↦ hhead

theorem endsText_dot {name : String} (h : IsName name) :
    EndsText ('.' :: (name.toList ++ rest)) := by
  obtain ⟨c, hc, hfirst⟩ := h.first
  refine ⟨fun d hd ↦ ?_, fun d l hl ↦ ?_⟩
  · cases hd
    decide
  · have hhead := congrArg List.head? (List.cons.inj hl).2
    rw [List.head?_append, hc] at hhead
    obtain rfl : c = d := Option.some.inj hhead
    refine Bool.eq_false_iff.mpr fun hdigit ↦ ?_
    have hnat := toNat_of_digit hdigit
    have hnat' := toNat_of_letter hfirst
    omega

theorem endsText_cons (hc : isIdentChar c = false) (hne : c ≠ '.') (cs : List Char) :
    EndsText (c :: cs) := by
  refine ⟨fun d hd ↦ ?_, fun d l hl ↦ absurd (List.cons.inj hl).1 hne⟩
  cases hd
  exact hc

theorem endsText_nil : EndsText [] := ⟨fun _ h ↦ (nomatch h), fun _ _ h ↦ (nomatch h)⟩

/-! ## How tokens are written -/

/-- The text of a token of a certain type, for some of those that have only one. -/
def fixedText : TokenType → Option String
  | .not => some "!" | .star => some "*" | .slash => some "/" | .percent => some "%"
  | .plus => some "+" | .minus => some "-"
  | .lt => some "<" | .le => some "<=" | .gt => some ">" | .ge => some ">="
  | .eq => some "==" | .neq => some "!="
  | .rangeKw => some "range" | .printKw => some "print"
  | _ => none

/-- A token is written as its type says. -/
structure WellWritten (t : Token) : Prop where
  name : t.ty = .ident → IsName t.value
  int : t.ty = .intLiteral → IsInt t.value
  float : t.ty = .floatLiteral → IsFloat t.value
  fixed : fixedText t.ty = none ∨ fixedText t.ty = some t.value

/-- A token whose type has only one text. -/
theorem WellWritten.value_eq {t : Token} (h : WellWritten t) {text : String}
    (hty : fixedText t.ty = some text) : t.value = text := by
  rcases h.fixed with hnone | hsome
  · rw [hty] at hnone
    cases hnone
  · exact (Option.some.inj (hty.symm.trans hsome)).symm

/-- A type that has only one text, or none that matters. -/
def IsFixed (ty : TokenType) (text : String) : Prop :=
  (ty ≠ .ident ∧ ty ≠ .intLiteral ∧ ty ≠ .floatLiteral) ∧
    (fixedText ty = none ∨ fixedText ty = some text)

instance (ty : TokenType) (text : String) : Decidable (IsFixed ty text) :=
  inferInstanceAs (Decidable (_ ∧ _))

theorem WellWritten.of_fixed {t : Token} (h : IsFixed t.ty t.value) : WellWritten t :=
  ⟨fun hident ↦ absurd hident h.1.1, fun hint ↦ absurd hint h.1.2.1,
    fun hfloat ↦ absurd hfloat h.1.2.2, h.2⟩

theorem isFixed_of_oneTy (h : oneTy c = some ty) : IsFixed ty c.toString := by
  have hall : ∀ p ∈ oneOperators, IsFixed p.2 p.1.toString := by decide
  exact hall _ (mem_oneOperators h)

theorem isFixed_of_twoTy {two : List Char} (h : twoTy two = some ty) :
    IsFixed ty (String.ofList two) := by
  have hall : ∀ p ∈ twoOperators, IsFixed p.2 (String.ofList p.1) := by decide
  exact hall _ (mem_twoOperators h)

theorem wellWritten_lexIdent {l : List Char} {line col : ℕ}
    (hc : (isAsciiAlphabetic c || c = '_') = true) :
    WellWritten (lexIdent ⟨c :: l, line, col⟩).1 := by
  have hident : isIdentChar c = true := by
    rw [isIdentChar, isAsciiAlphanumeric]
    rcases Bool.or_eq_true _ _ ▸ hc with h | h
    · rw [h, Bool.true_or, Bool.true_or]
    · rw [h, Bool.or_true]
  rw [lexIdent]
  dsimp only
  cases hfind : keywords.find? fun k ↦ k.1 = String.ofList ((c :: l).takeWhile isIdentChar) with
  | none =>
    refine ⟨fun _ ↦ ⟨⟨c, ?_, hc⟩, fun d hd ↦ ?_, fun k hk heq ↦ ?_⟩,
      fun h ↦ TokenType.noConfusion h, fun h ↦ TokenType.noConfusion h, .inl rfl⟩
    · rw [String.toList_ofList, List.takeWhile_cons_of_pos hident]
      rfl
    · rw [String.toList_ofList] at hd
      exact List.mem_takeWhile_imp hd
    · exact List.find?_eq_none.mp hfind k hk (decide_eq_true heq)
  | some k =>
    have hkeywords : ∀ k ∈ keywords, IsFixed k.2 k.1 := by decide
    have hvalue : k.1 = String.ofList ((c :: l).takeWhile isIdentChar) := by
      simpa using List.find?_some hfind
    rw [← hvalue]
    exact .of_fixed (hkeywords k (List.mem_of_find?_eq_some hfind))

theorem head_takeWhile_of_digit {l : List Char} (hc : isAsciiDigit c = true) :
    ∃ d ∈ ((c :: l).takeWhile isDigitOrUnderscore).head?, isAsciiDigit d = true := by
  have hdigit : isDigitOrUnderscore c = true := by
    rw [isDigitOrUnderscore, hc]
    rfl
  rw [List.takeWhile_cons_of_pos hdigit]
  exact ⟨c, rfl, hc⟩

theorem head_dropWhile (p q : Char → Bool) (l : List Char) :
    ∀ c ∈ ((l.dropWhile p).takeWhile q).head?, p c = false := by
  intro c hc
  have hnot := List.head?_dropWhile_not p l
  rw [List.head?_takeWhile] at hc
  rw [Option.mem_def.mp (Option.mem_filter_iff.mp hc).1] at hnot
  exact hnot

theorem wellWritten_lexNumber {l : List Char} {line col : ℕ} (hc : isAsciiDigit c = true) :
    WellWritten (lexNumber ⟨c :: l, line, col⟩).1 := by
  have hwhole := head_takeWhile_of_digit (l := l) hc
  have hdigits : ∀ {l : List Char}, ∀ c ∈ l.takeWhile isDigitOrUnderscore,
      isDigitOrUnderscore c = true := fun _ hd ↦ List.mem_takeWhile_imp hd
  have hsuffix : ∀ {l : List Char}, ∀ c ∈ l.takeWhile isAsciiAlphanumeric,
      isAsciiAlphanumeric c = true := fun _ hd ↦ List.mem_takeWhile_imp hd
  rw [lexNumber]
  dsimp only
  split_ifs with hfloat
  · refine ⟨fun h ↦ TokenType.noConfusion h, fun h ↦ TokenType.noConfusion h, fun _ ↦ ?_, .inl rfl⟩
    split at hfloat
    · rename_i d l' hrest
      rw [hrest, List.tail_cons]
      refine ⟨_, _, _, String.toList_ofList, hwhole, head_takeWhile_of_digit hfloat, hdigits,
        hdigits, hsuffix, head_dropWhile _ _ _⟩
    · cases hfloat
  · refine ⟨fun h ↦ TokenType.noConfusion h, fun _ ↦ ?_, fun h ↦ TokenType.noConfusion h, .inl rfl⟩
    rw [List.append_nil]
    exact ⟨_, _, String.toList_ofList, hwhole, hdigits, hsuffix, head_dropWhile _ _ _⟩

theorem wellWritten_lexOperator {s s' : LexState} {t : Token}
    (h : lexOperator c s = .ok (t, s')) : WellWritten t := by
  rw [lexOperator] at h
  dsimp only at h
  split_ifs at h
  · cases h
    exact .of_fixed (show IsFixed .ellipsis "..." by decide)
  split at h
  · rename_i ty hty
    cases h
    exact .of_fixed (isFixed_of_twoTy hty)
  split at h
  · rename_i ty hty
    cases h
    exact .of_fixed (isFixed_of_oneTy hty)
  · cases h

theorem wellWritten_lexStep {l : List Char} {line col : ℕ} {s' : LexState} {token : Option Token}
    (h : lexStep c ⟨c :: l, line, col⟩ = .ok (token, s')) : ∀ t ∈ token, WellWritten t := by
  have hsome : ∀ {t : Token}, WellWritten t → ∀ t' ∈ some t, WellWritten t' :=
    fun ht t' ht' ↦ Option.some.inj ht' ▸ ht
  have hnone : ∀ t ∈ (none : Option Token), WellWritten t := fun _ ht ↦ nomatch ht
  have hliteral : ∀ {ty : TokenType} (value : String) (line col : ℕ), IsFixed ty "" →
      fixedText ty = none → WellWritten ⟨ty, value, line, col⟩ :=
    fun _ _ _ hty hfixed ↦ .of_fixed ⟨hty.1, .inl hfixed⟩
  rw [lexStep] at h
  split_ifs at h with hnl hws hline hblock hdigit hquote hchar hident
  · cases h
    exact hnone
  · cases h
    exact hnone
  · cases h
    exact hnone
  · cases h
    exact hnone
  · cases h
    exact hsome (wellWritten_lexNumber hdigit)
  · split at h
    · cases h
      exact hsome (hliteral _ _ _ (by decide) rfl)
    · cases h
  · cases h
    exact hsome (hliteral _ _ _ (by decide) rfl)
  · cases h
    exact hsome (wellWritten_lexIdent hident)
  · cases hop : lexOperator c ⟨c :: l, line, col⟩ with
    | error e =>
      rw [hop] at h
      cases h
    | ok r =>
      rw [hop] at h
      cases h
      exact hsome (wellWritten_lexOperator hop)

theorem wellWritten_lexLoop {fuel : ℕ} {s : LexState} {tokens toks : List Token}
    (h : lexLoop fuel s tokens = some (.ok toks)) (htokens : ∀ t ∈ tokens, WellWritten t) :
    ∀ t ∈ toks, WellWritten t := by
  induction fuel generalizing s tokens with
  | zero => cases h
  | succ fuel ih =>
    obtain ⟨l, line, col⟩ := s
    rw [lexLoop] at h
    cases l with
    | nil =>
      cases h
      refine List.forall_mem_append.mpr ⟨htokens, List.forall_mem_singleton.mpr (.of_fixed ?_)⟩
      exact (by decide : IsFixed .eof "")
    | cons c l =>
      dsimp only at h
      split at h
      · cases h
      · rename_i hstep
        refine ih h (List.forall_mem_append.mpr ⟨htokens, fun t ht ↦ ?_⟩)
        exact wellWritten_lexStep hstep t (Option.mem_toList.mp ht)

/-- **Every token of the lexer is written as its type says.** -/
theorem wellWritten_tokenize {src : String} {toks : List Token}
    (h : tokenize src = some (.ok toks)) : ∀ t ∈ toks, WellWritten t :=
  wellWritten_lexLoop h fun _ ht ↦ nomatch ht

end Agex

end Zeroxos
