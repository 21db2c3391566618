import Mathlib.Data.Bool.AllAny
import Zeroxos.Library.SourcePos
import Zeroxos.Agex.Lexemes

/-!
# Comments and literals in a source

What a character of the source belongs to can be told from the characters in front of it: code, a
comment, a string or a character literal. `Region.next` says so a character at a time and knows
nothing of tokens.

## Rounds and regions

The lexer goes over the source a round at a time, and `lexStep_reads` says what a round has to do
with regions: it begins and ends in code, and in between reads a token outside comments, or one
whole comment.

## Where they part

Two rounds can end elsewhere. A character literal without a closing quote is read to the end of the
input; a block comment that is not closed is read up to the last character, which the next round
takes for code. `Settled` is the condition under which the automaton and the lexer agree about the
characters to come.
-/

namespace Zeroxos

namespace Agex

/-- What the next character of the source belongs to. -/
inductive Region
  | code
  /-- code, behind a slash that may open a comment -/
  | slash
  | lineComment
  | blockComment
  /-- a block comment, behind a star that may close it -/
  | star
  | string
  /-- a string literal, behind a backslash -/
  | stringEscape
  | charLiteral
  /-- a character literal, behind a backslash -/
  | charEscape
deriving DecidableEq, Repr

namespace Region

/-- Behind a character of code. -/
def opening (c : Char) : Region :=
  if c = '/' then .slash else if c = '"' then .string else if c = '\'' then .charLiteral else .code

/-- Behind one more character. -/
def next : Region → Char → Region
  | .code, c => opening c
  | .slash, c => if c = '/' then .lineComment else if c = '*' then .blockComment else opening c
  | .lineComment, c => if c = '\n' then .code else .lineComment
  | .blockComment, c => if c = '*' then .star else .blockComment
  | .star, c => if c = '/' then .code else if c = '*' then .star else .blockComment
  | .string, c => if c = '"' then .code else if c = '\\' then .stringEscape else .string
  | .stringEscape, _ => .string
  | .charLiteral, c =>
    if c = '\'' then .code else if c = '\\' then .charEscape else .charLiteral
  | .charEscape, _ => .charLiteral

/-- Behind some text. -/
def after (r : Region) (l : List Char) : Region := l.foldl next r

@[simp] theorem after_cons (r : Region) (c : Char) (l : List Char) :
    r.after (c :: l) = (r.next c).after l := rfl

theorem after_append (r : Region) (l l' : List Char) :
    r.after (l ++ l') = (r.after l).after l' := List.foldl_append

/-- Outside comments and literals. -/
def IsCode (r : Region) : Prop := r = .code ∨ r = .slash

/-- In a comment. -/
def IsComment (r : Region) : Prop := r = .lineComment ∨ r = .blockComment ∨ r = .star

/-- In a block comment. -/
def IsBlock (r : Region) : Prop := r = .blockComment ∨ r = .star

/-- In a string literal. -/
def IsString (r : Region) : Prop := r = .string ∨ r = .stringEscape

/-- In a character literal. -/
def IsChar (r : Region) : Prop := r = .charLiteral ∨ r = .charEscape

instance : DecidablePred IsCode := fun _ ↦ inferInstanceAs (Decidable (_ ∨ _))

instance : DecidablePred IsComment := fun _ ↦ inferInstanceAs (Decidable (_ ∨ _ ∨ _))

instance : DecidablePred IsBlock := fun _ ↦ inferInstanceAs (Decidable (_ ∨ _))

instance : DecidablePred IsString := fun _ ↦ inferInstanceAs (Decidable (_ ∨ _))

instance : DecidablePred IsChar := fun _ ↦ inferInstanceAs (Decidable (_ ∨ _))

/-- At no character of the text, nor behind it, in a comment. -/
def NoComment : Region → List Char → Prop
  | r, [] => ¬r.IsComment
  | r, c :: l => ¬r.IsComment ∧ NoComment (r.next c) l

theorem NoComment.nil {r : Region} (h : ¬r.IsComment) : NoComment r [] := h

theorem NoComment.take {r : Region} {l : List Char} (h : NoComment r l) {k : ℕ}
    (hk : k ≤ l.length) : ¬(r.after (l.take k)).IsComment := by
  induction k generalizing r l with
  | zero =>
    cases l with
    | nil => exact h
    | cons c l => exact h.1
  | succ k ih =>
    cases l with
    | nil => exact absurd hk (Nat.not_succ_le_zero k)
    | cons c l => exact ih h.2 (Nat.le_of_succ_le_succ hk)

end Region

/-- A newline that the lexer reads in a literal without counting it: behind a backslash, or anywhere
in a character literal. -/
def Region.HidesNewline (r : Region) : Prop := r = .stringEscape ∨ r.IsChar

instance : DecidablePred Region.HidesNewline := fun _ ↦ inferInstanceAs (Decidable (_ ∨ _))

/-- How many newlines of the text are read without being counted. -/
def hiddenNewlines : Region → List Char → ℕ
  | _, [] => 0
  | r, c :: l => (if c = '\n' ∧ r.HidesNewline then 1 else 0) + hiddenNewlines (r.next c) l

theorem hiddenNewlines_append (r : Region) (l l' : List Char) :
    hiddenNewlines r (l ++ l') = hiddenNewlines r l + hiddenNewlines (r.after l) l' := by
  induction l generalizing r with
  | nil => exact (Nat.zero_add _).symm
  | cons c l ih =>
    rw [List.cons_append, hiddenNewlines, hiddenNewlines, ih, Region.after_cons, Nat.add_assoc]

/-- A character that begins no token, no comment and no white space. -/
def Unexpected (c : Char) : Prop :=
  isWhitespace c = false ∧ isAsciiDigit c = false ∧ c ≠ '"' ∧ c ≠ '\'' ∧
    (isAsciiAlphabetic c || c = '_') = false ∧ oneTy c = none

instance : DecidablePred Unexpected := fun _ ↦ inferInstanceAs (Decidable (_ ∧ _))

/-- The text is refused from a region on: a character of code is unexpected, a string literal is not
closed, or a block comment is not closed and its last character, taken for code, is refused. -/
def Refused : Region → List Char → Prop
  | r, [] => r.IsString
  | r, c :: l =>
    r.IsCode ∧ Unexpected c ∨ (r.IsBlock ∧ l = [] ∧ (c = '"' ∨ Unexpected c)) ∨
      Refused (r.next c) l

/-! ## Stretches of a round -/

/-- The lexer is at a position, up to a number of newlines it did not count. -/
def Lags (p : SourcePos) (n line col : ℕ) : Prop :=
  line + n = p.line ∧ (n = 0 → col = p.col)

/-- Some text is read: what follows it is refused if the whole was, and the counters of the lexer
move as the position does, hidden newlines apart. -/
structure Stretch (r : Region) (read : List Char) (line col : ℕ) (s : LexState) : Prop where
  refused : Refused r (read ++ s.rest) ↔ Refused (r.after read) s.rest
  lags : ∀ p n, Lags p n line col →
    Lags (p.along read) (n + hiddenNewlines r read) s.line s.col

/-- The character is read without complaint where it stands. -/
def Accepted (r : Region) (c : Char) (rest : List Char) : Prop :=
  ¬(r.IsCode ∧ Unexpected c) ∧ ¬(r.IsBlock ∧ rest = [] ∧ (c = '"' ∨ Unexpected c))

variable {r : Region} {c : Char} {l read rest : List Char} {line col line' col' : ℕ}
  {s s' : LexState}

theorem Accepted.refused_iff (h : Accepted r c rest) :
    Refused r (c :: rest) ↔ Refused (r.next c) rest := by
  rw [Refused]
  constructor
  · rintro (hcode | hblock | hnext)
    · exact absurd hcode h.1
    · exact absurd hblock h.2
    · exact hnext
  · exact fun hnext ↦ .inr (.inr hnext)

theorem accepted_of_not (hcode : ¬r.IsCode) (hblock : ¬r.IsBlock) : Accepted r c rest :=
  ⟨fun h ↦ hcode h.1, fun h ↦ hblock h.1⟩

theorem accepted_of_literal (h : r.IsString ∨ r.IsChar) : Accepted r c rest := by
  rcases h with (rfl | rfl) | (rfl | rfl) <;> exact accepted_of_not (by decide) (by decide)

namespace Stretch

theorem nil : Stretch r [] line col ⟨rest, line, col⟩ := ⟨Iff.rfl, fun _ _ h ↦ h⟩

theorem cons (h : Accepted r c (read ++ s.rest))
    (hlags : ∀ p n, Lags p n line col →
      Lags (p.advance c) (n + if c = '\n' ∧ r.HidesNewline then 1 else 0) line' col')
    (h' : Stretch (r.next c) read line' col' s) : Stretch r (c :: read) line col s := by
  refine ⟨h.refused_iff.trans h'.refused, fun p n hp ↦ ?_⟩
  rw [hiddenNewlines, ← Nat.add_assoc]
  exact h'.lags _ _ (hlags p n hp)

theorem step (h : Accepted r c (read ++ s.rest)) (hc : c ≠ '\n')
    (h' : Stretch (r.next c) read line (col + 1) s) : Stretch r (c :: read) line col s := by
  refine cons h (fun p n hp ↦ ?_) h'
  rw [if_neg fun h ↦ hc h.1, SourcePos.advance_of_ne hc]
  exact ⟨hp.1, fun hn ↦ congrArg (· + 1) (hp.2 hn)⟩

theorem newline (h : Accepted r '\n' (read ++ s.rest)) (hr : ¬r.HidesNewline)
    (h' : Stretch (r.next '\n') read (line + 1) 1 s) : Stretch r ('\n' :: read) line col s := by
  refine cons h (fun p n hp ↦ ?_) h'
  rw [if_neg fun h ↦ hr h.2]
  exact ⟨(Nat.add_right_comm _ _ _).trans (congrArg (· + 1) hp.1), fun _ ↦ rfl⟩

theorem hidden (hr : r.HidesNewline) (h' : Stretch (r.next c) read line (col + 1) s) :
    Stretch r (c :: read) line col s := by
  have hliteral : r.IsString ∨ r.IsChar := hr.imp_left .inr
  by_cases hc : c = '\n'
  · subst hc
    refine cons (accepted_of_literal hliteral) (fun p n hp ↦ ?_) h'
    rw [if_pos ⟨rfl, hr⟩, SourcePos.advance_newline]
    exact ⟨congrArg (· + 1) hp.1, fun hn ↦ absurd hn (Nat.succ_ne_zero n)⟩
  · exact .step (accepted_of_literal hliteral) hc h'

end Stretch

/-! ## The loops inside a round -/

theorem accepted_of_block (hr : r.IsBlock) (hrest : rest ≠ []) : Accepted r c rest := by
  refine ⟨fun h ↦ ?_, fun h ↦ hrest h.2.1⟩
  rcases hr with rfl | rfl <;> exact absurd h.1 (by decide)

theorem next_of_block (hr : r.IsBlock) (hstar : r = .star → c ≠ '/') :
    r.next c = if c = '*' then .star else .blockComment := by
  rcases hr with rfl | rfl
  · rfl
  · exact if_neg (hstar rfl)

/-- The body of a block comment is read to its end, or to the last character. -/
theorem blockComment_reads (hr : r.IsBlock) (hstar : r = .star → ∀ c ∈ l.head?, c ≠ '/')
    (line col : ℕ) :
    ∃ read, l = read ++ (blockComment l line col).rest ∧
      Stretch r read line col (blockComment l line col) ∧
      (r.after read = .code ∨ (r.after read).IsBlock ∧
        (blockComment l line col).rest.length ≤ 1 ∧
        (r.after read = .star → ∀ c ∈ (blockComment l line col).rest.head?, c ≠ '/')) := by
  fun_induction blockComment l line col generalizing r with
  | case1 a b rest line col h =>
    obtain ⟨rfl, rfl⟩ := h
    have hnext : r.next '*' = .star := next_of_block hr fun _ ↦ by decide
    refine ⟨['*', '/'], rfl, .step (accepted_of_block hr (List.cons_ne_nil _ _)) (by decide) ?_,
      .inl ?_⟩
    · rw [hnext]
      exact .step ⟨by decide, fun h ↦ absurd h.2.2 (by decide)⟩ (by decide) .nil
    · rw [Region.after_cons, hnext]
      rfl
  | case2 b rest line col h ih =>
    have hnext : r.next '\n' = .blockComment :=
      next_of_block hr fun h ↦ hstar h _ rfl
    obtain ⟨read, hsplit, hread, hafter⟩ := ih (.inl rfl) fun hstar ↦ absurd hstar (by decide)
    have hne : read ++ (blockComment (b :: rest) (line + 1) 1).rest ≠ [] := by
      rw [← hsplit]
      exact List.cons_ne_nil _ _
    rw [← hnext] at hread hafter
    exact ⟨'\n' :: read, congrArg _ hsplit,
      .newline (accepted_of_block hr hne) (by rcases hr with rfl | rfl <;> decide) hread, hafter⟩
  | case3 a b rest line col h hnl ih =>
    have hnext := next_of_block hr fun h ↦ hstar h a rfl
    have hblock : (r.next a).IsBlock := by
      rw [hnext]
      split_ifs
      · exact .inr rfl
      · exact .inl rfl
    have hslash : r.next a = .star → ∀ c ∈ (b :: rest).head?, c ≠ '/' := by
      rintro ha c hc rfl
      rw [hnext] at ha
      split_ifs at ha with hstar'
      exact h ⟨hstar', (Option.some.inj hc)⟩
    obtain ⟨read, hsplit, hread, hafter⟩ := ih hblock hslash
    have hne : read ++ (blockComment (b :: rest) line (col + 1)).rest ≠ [] := by
      rw [← hsplit]
      exact List.cons_ne_nil _ _
    exact ⟨a :: read, congrArg _ hsplit, .step (accepted_of_block hr hne) hnl hread, hafter⟩
  | case4 rest line col hshort =>
    refine ⟨[], rfl, .nil, .inr ⟨hr, ?_, hstar⟩⟩
    cases rest with
    | nil => exact Nat.zero_le _
    | cons a rest =>
      cases rest with
      | nil => exact le_rfl
      | cons b rest => exact absurd rfl (hshort a b rest)

theorem stringBody_reads {acc v : List Char} (h : stringBody l line col acc = some (v, s)) :
    ∃ read, l = read ++ s.rest ∧ Stretch .string read line col s ∧
      Region.after .string read = .code ∧ Region.NoComment .string read := by
  have hstring : ∀ {c : Char} {rest : List Char}, Accepted .string c rest :=
    accepted_of_literal (.inl (.inl rfl))
  fun_induction stringBody l line col acc with
  | case1 => cases h
  | case2 =>
    cases h
    exact ⟨['"'], rfl, .step hstring (by decide) .nil, rfl, by decide, .nil (by decide)⟩
  | case3 esc rest line col acc ih =>
    obtain ⟨read, hsplit, hread, hafter, hfree⟩ := ih h
    refine ⟨'\\' :: esc :: read, congrArg _ (congrArg _ hsplit), ?_, hafter, by decide, by decide,
      hfree⟩
    exact .step hstring (by decide) (.hidden (.inl rfl) hread)
  | case4 rest line col acc _ _ ih =>
    obtain ⟨read, hsplit, hread, hafter, hfree⟩ := ih h
    exact ⟨'\n' :: read, congrArg _ hsplit, .newline hstring (by decide) hread, hafter, by decide,
      hfree⟩
  | case5 c rest line col acc hquote hesc hnl ih =>
    have hnext : Region.next .string c = .string := by
      rw [Region.next, if_neg fun h ↦ hquote h, if_neg ?_]
      rintro rfl
      -- a backslash that ends the input
      cases rest with
      | nil => cases h
      | cons esc rest => exact hesc esc rest rfl rfl
    obtain ⟨read, hsplit, hread, hafter, hfree⟩ := ih h
    rw [← hnext] at hread hafter hfree
    exact ⟨c :: read, congrArg _ hsplit, .step hstring hnl hread, hafter, by decide, hfree⟩

/-- A string literal that is not closed takes the rest of the source. -/
theorem refused_of_stringBody {acc : List Char} (h : stringBody l line col acc = none) :
    Refused .string l := by
  fun_induction stringBody l line col acc with
  | case1 => exact .inl rfl
  | case2 => cases h
  | case3 esc rest line col acc ih =>
    have hnext : Refused .stringEscape (esc :: rest) := .inr (.inr (ih h))
    exact .inr (.inr hnext)
  | case4 rest line col acc _ _ ih => exact .inr (.inr (ih h))
  | case5 c rest line col acc hquote hesc hnl ih =>
    refine .inr (.inr ?_)
    rw [Region.next, if_neg fun h ↦ hquote h]
    split_ifs with hc
    · cases rest with
      | nil => exact .inr rfl
      | cons esc rest => exact (hesc esc rest hc rfl).elim
    · exact ih h

theorem charBody_reads (l : List Char) (line col : ℕ) (acc : List Char) :
    ∃ read, l = read ++ (charBody l line col acc).2.rest ∧
      Stretch .charLiteral read line col (charBody l line col acc).2 ∧
      Region.NoComment .charLiteral read ∧
      (Region.after .charLiteral read = .code ∨
        (Region.after .charLiteral read).IsChar ∧ (charBody l line col acc).2.rest = []) := by
  have hchar : ∀ {c : Char} {rest : List Char}, Accepted .charLiteral c rest :=
    accepted_of_literal (.inr (.inl rfl))
  fun_induction charBody l line col acc with
  | case1 => exact ⟨[], rfl, .nil, .nil (by decide), .inr ⟨.inl rfl, rfl⟩⟩
  | case2 rest line col acc =>
    exact ⟨['\''], rfl, .step hchar (by decide) .nil, ⟨by decide, .nil (by decide)⟩, .inl rfl⟩
  | case3 esc rest line col acc ih =>
    obtain ⟨read, hsplit, hread, hfree, hafter⟩ := ih
    refine ⟨'\\' :: esc :: read, congrArg _ (congrArg _ hsplit), ?_, ⟨by decide, by decide, hfree⟩,
      hafter⟩
    exact .step hchar (by decide) (.hidden (.inr (.inr rfl)) hread)
  | case4 c rest line col acc hquote hesc ih =>
    by_cases hc : c = '\\'
    · -- a backslash that ends the input
      cases rest with
      | nil =>
        subst hc
        exact ⟨['\\'], rfl, .step hchar (by decide) .nil, ⟨by decide, .nil (by decide)⟩,
          .inr ⟨.inr rfl, rfl⟩⟩
      | cons esc rest => exact (hesc esc rest hc rfl).elim
    · have hnext : Region.next .charLiteral c = .charLiteral := by
        rw [Region.next, if_neg fun h ↦ hquote h, if_neg hc]
      obtain ⟨read, hsplit, hread, hfree, hafter⟩ := ih
      rw [← hnext] at hread hafter hfree
      exact ⟨c :: read, congrArg _ hsplit, .hidden (.inr (.inl rfl)) hread, ⟨by decide, hfree⟩,
        hafter⟩

/-! ## A round -/

/-- A character that neither ends a line nor opens anything. -/
def PlainChar (c : Char) : Prop := c ≠ '\n' ∧ Region.opening c = .code ∧ ¬Unexpected c

instance : DecidablePred PlainChar := fun _ ↦ inferInstanceAs (Decidable (_ ∧ _))

theorem plain_reads (h : ∀ c ∈ read, PlainChar c) (rest : List Char) (line col : ℕ) :
    Region.after .code read = .code ∧ Region.NoComment .code read ∧
      Stretch .code read line col ⟨rest, line, col + read.length⟩ := by
  induction read generalizing col with
  | nil => exact ⟨rfl, .nil (by decide), .nil⟩
  | cons c read ih =>
    obtain ⟨hnl, hnext, hexpected⟩ := h c List.mem_cons_self
    have hcode : Region.next .code c = .code := hnext
    obtain ⟨hafter, hfree, hread⟩ := ih (fun d hd ↦ h d (List.mem_cons_of_mem _ hd)) (col + 1)
    rw [← hcode, Nat.add_assoc, Nat.add_comm 1] at hread
    rw [Region.after_cons, hcode]
    refine ⟨hafter, ⟨by decide, hcode.symm ▸ hfree⟩, .step ⟨?_, ?_⟩ hnl hread⟩
    · exact fun h ↦ hexpected h.2
    · exact fun h ↦ absurd h.1 (by decide)

theorem opening_eq_code {p : Char → Bool} (h : p c = true) (hslash : p '/' = false)
    (hquote : p '"' = false) (hchar : p '\'' = false) : Region.opening c = .code := by
  have hne : ∀ d, p d = false → c ≠ d := by
    rintro d hd rfl
    exact Bool.false_ne_true (hd.symm.trans h)
  rw [Region.opening, if_neg (hne _ hslash), if_neg (hne _ hquote), if_neg (hne _ hchar)]

theorem plain_of_isIdentChar (h : isIdentChar c = true) : PlainChar c := by
  have hexpected : ¬Unexpected c := by
    rintro ⟨-, hdigit, -, -, hletter, -⟩
    rw [isIdentChar, isAsciiAlphanumeric, Bool.or_assoc, Bool.or_comm, Bool.or_assoc,
      Bool.or_comm (decide _), hletter, hdigit] at h
    exact absurd h (by decide)
  have hnl : c ≠ '\n' := by
    rintro rfl
    exact absurd h (by decide)
  exact ⟨hnl, opening_eq_code h (by decide) (by decide) (by decide), hexpected⟩

/-- Where a round can begin: in code, at the newline behind a line comment, or at the last character
of a block comment that is not closed. -/
def Settled : Region → List Char → Prop
  | .code, _ => True
  | .slash, rest => ∀ c ∈ rest.head?, c ≠ '/' ∧ c ≠ '*'
  | .lineComment, rest => ∀ c ∈ rest.head?, c = '\n'
  | .blockComment, rest => rest.length ≤ 1
  | .star, rest => rest.length ≤ 1 ∧ ∀ c ∈ rest.head?, c ≠ '/'
  | .charLiteral, rest => rest = []
  | .charEscape, rest => rest = []
  | .string, _ => False
  | .stringEscape, _ => False

/-- The counters of the lexer between two rounds. Behind a line comment the column is too small. -/
def Tracks (r : Region) (p : SourcePos) (n : ℕ) (s : LexState) : Prop :=
  s.line + n = p.line ∧ (n = 0 → if r = .lineComment then s.col < p.col else s.col = p.col)

/-- What a round has to do with regions. -/
structure RoundReads (r : Region) (read : List Char) (line col : ℕ) (token : Option Token)
    (s : LexState) : Prop where
  settled : Settled (r.after read) s.rest
  refused : Refused r (read ++ s.rest) ↔ Refused (r.after read) s.rest
  tracks : ∀ p n, Lags p n line col →
    Tracks (r.after read) (p.along read) (n + hiddenNewlines r read) s
  token : ∀ t ∈ token, t.line = line ∧ t.col = col ∧ r.NoComment read

theorem Stretch.round {token : Option Token} (h : Stretch r read line col s)
    (hsettled : Settled (r.after read) s.rest) (hafter : r.after read ≠ .lineComment)
    (htoken : ∀ t ∈ token, t.line = line ∧ t.col = col ∧ r.NoComment read) :
    RoundReads r read line col token s := by
  refine ⟨hsettled, h.refused, fun p n hp ↦ ⟨(h.lags p n hp).1, fun hn ↦ ?_⟩, htoken⟩
  rw [if_neg hafter]
  exact (h.lags p n hp).2 hn

theorem plain_round {t : Token} (h : ∀ c ∈ read, PlainChar c) (hline : t.line = line)
    (hcol : t.col = col) : RoundReads .code read line col (some t)
      ⟨rest, line, col + read.length⟩ := by
  obtain ⟨hafter, hfree, hread⟩ := plain_reads h rest line col
  refine hread.round (hafter.symm ▸ trivial) (hafter.symm ▸ by decide) fun t' ht' ↦ ?_
  cases ht'
  exact ⟨hline, hcol, hfree⟩

theorem lexIdent_round (l : List Char) (line col : ℕ) :
    ∃ read, l = read ++ (lexIdent ⟨l, line, col⟩).2.rest ∧
      RoundReads .code read line col (some (lexIdent ⟨l, line, col⟩).1)
        (lexIdent ⟨l, line, col⟩).2 :=
  ⟨l.takeWhile isIdentChar, List.takeWhile_append_dropWhile.symm,
    plain_round (fun _ hc ↦ plain_of_isIdentChar (List.mem_takeWhile_imp hc)) rfl rfl⟩

theorem lexNumber_round (l : List Char) (line col : ℕ) :
    ∃ read, l = read ++ (lexNumber ⟨l, line, col⟩).2.rest ∧
      RoundReads .code read line col (some (lexNumber ⟨l, line, col⟩).1)
        (lexNumber ⟨l, line, col⟩).2 := by
  have hdigits : ∀ l : List Char, ∀ c ∈ l.takeWhile isDigitOrUnderscore, PlainChar c :=
    fun _ _ hc ↦ plain_of_isIdentChar (isIdentChar_of_digit (List.mem_takeWhile_imp hc))
  have hsuffix : ∀ l : List Char, ∀ c ∈ l.takeWhile isAsciiAlphanumeric, PlainChar c :=
    fun _ _ hc ↦ plain_of_isIdentChar (isIdentChar_of_alphanumeric (List.mem_takeWhile_imp hc))
  rw [lexNumber]
  dsimp only
  split_ifs with hfloat
  · split at hfloat
    · rename_i d rest hrest
      rw [hrest, List.tail_cons]
      refine ⟨_, ?_, plain_round ?_ rfl rfl⟩
      · rw [List.append_assoc, List.append_assoc, List.takeWhile_append_dropWhile,
          List.cons_append, List.takeWhile_append_dropWhile, ← hrest,
          List.takeWhile_append_dropWhile]
      · refine List.forall_mem_append.mpr ⟨List.forall_mem_append.mpr ⟨hdigits _, ?_⟩, hsuffix _⟩
        exact List.forall_mem_cons.mpr ⟨by decide, hdigits _⟩
    · cases hfloat
  · refine ⟨_, ?_, plain_round ?_ rfl rfl⟩
    · rw [List.append_nil, List.append_assoc, List.takeWhile_append_dropWhile,
        List.takeWhile_append_dropWhile]
    · rw [List.append_nil]
      exact List.forall_mem_append.mpr ⟨hdigits _, hsuffix _⟩

theorem accepted_of_code (hr : r.IsCode) (hc : ¬Unexpected c) : Accepted r c rest := by
  refine ⟨fun h ↦ hc h.2, fun h ↦ ?_⟩
  rcases hr with rfl | rfl <;> exact absurd h.1 (by decide)

theorem operator_round {ty : TokenType} {n : ℕ} {value : String}
    (hn : ((c :: l).take n).length = n) (hplain : ∀ d ∈ (c :: l).take n, PlainChar d) :
    ∃ read, c :: l = read ++ (c :: l).drop n ∧
      RoundReads .code read line col (some ⟨ty, value, line, col⟩)
        ⟨(c :: l).drop n, line, col + n⟩ := by
  have hround : RoundReads .code ((c :: l).take n) line col (some ⟨ty, value, line, col⟩)
      ⟨(c :: l).drop n, line, col + ((c :: l).take n).length⟩ := plain_round hplain rfl rfl
  rw [hn] at hround
  exact ⟨_, (List.take_append_drop n _).symm, hround⟩

theorem eq_of_take_two {a b : Char} (h : (c :: l).take 2 = [a, b]) : ∃ l', c = a ∧ l = b :: l' := by
  cases l with
  | nil => cases h
  | cons d l =>
    cases h
    exact ⟨l, rfl, rfl⟩

/-- An operator is plain unless it begins with a slash, which the lexer has found not to open a
comment. -/
theorem lexOperator_round {t : Token} (hcomment : c = '/' → ∀ d ∈ l.head?, d ≠ '/' ∧ d ≠ '*')
    (h : lexOperator c ⟨c :: l, line, col⟩ = .ok (t, s)) :
    ∃ read, c :: l = read ++ s.rest ∧ RoundReads .code read line col (some t) s := by
  rw [lexOperator] at h
  dsimp only at h
  split_ifs at h with hthree
  · cases h
    refine operator_round (congrArg List.length hthree) ?_
    rw [hthree]
    exact List.all_iff_forall_prop.mp (by decide)
  split at h
  · rename_i ty hty
    cases h
    have hmem := mem_twoOperators hty
    have hlength : ∀ p ∈ twoOperators, p.1.length = 2 := by decide
    by_cases hslash : (c :: l).take 2 = ['/', '=']
    · obtain ⟨l, rfl, rfl⟩ := eq_of_take_two hslash
      refine ⟨['/', '='], rfl, Stretch.round (.step ?_ (by decide) (.step ?_ (by decide) .nil))
        trivial (by decide) fun t ht ↦ ?_⟩
      · exact accepted_of_code (.inl rfl) (by decide)
      · exact accepted_of_code (.inr rfl) (by decide)
      · cases ht
        exact ⟨rfl, rfl, by decide, by decide, .nil (by decide)⟩
    · have hplain : ∀ p ∈ twoOperators, p.1 ≠ ['/', '='] →
          (p.1.all fun d ↦ decide (PlainChar d)) = true := by decide
      exact operator_round (hlength _ hmem) (List.all_iff_forall_prop.mp (hplain _ hmem hslash))
  split at h
  · rename_i ty hty
    cases h
    by_cases hslash : c = '/'
    · subst hslash
      refine ⟨['/'], rfl, Stretch.round (.step ?_ (by decide) .nil) (hcomment rfl) (by decide)
        fun t ht ↦ ?_⟩
      · exact accepted_of_code (.inl rfl) (by decide)
      · cases ht
        exact ⟨rfl, rfl, by decide, .nil (by decide)⟩
    · have hplain : ∀ p ∈ oneOperators, p.1 ≠ '/' → PlainChar p.1 := by decide
      refine operator_round (n := 1) rfl fun d hd ↦ ?_
      rw [List.mem_singleton.mp hd]
      exact hplain _ (mem_oneOperators hty) hslash
  · cases h

theorem settled_of_eq {r' : Region} (h : r = r') (h' : Settled r' rest) : Settled r rest := h ▸ h'

theorem settled_of_block (h : r.IsBlock) (hrest : rest.length ≤ 1)
    (hstar : r = .star → ∀ c ∈ rest.head?, c ≠ '/') : Settled r rest := by
  rcases h with rfl | rfl
  · exact hrest
  · exact ⟨hrest, hstar rfl⟩

theorem opening_of_isWhitespace (h : isWhitespace c = true) : Region.opening c = .code :=
  opening_eq_code h (by decide) (by decide) (by decide)

theorem comment_reads (h : ∀ c ∈ read, c ≠ '\n') (rest : List Char) :
    Region.after .lineComment read = .lineComment ∧
      (Refused .lineComment (read ++ rest) ↔ Refused .lineComment rest) ∧
      hiddenNewlines .lineComment read = 0 := by
  induction read with
  | nil => exact ⟨rfl, Iff.rfl, rfl⟩
  | cons c read ih =>
    have hnext : Region.next .lineComment c = .lineComment := if_neg (h c List.mem_cons_self)
    obtain ⟨hafter, hrefused, hhidden⟩ := ih fun d hd ↦ h d (List.mem_cons_of_mem _ hd)
    have haccepted : Accepted .lineComment c (read ++ rest) :=
      accepted_of_not (by decide) (by decide)
    have hstep := haccepted.refused_iff
    rw [hnext] at hstep
    rw [Region.after_cons, hiddenNewlines, hnext, if_neg fun h ↦ absurd h.2 (by decide)]
    exact ⟨hafter, hstep.trans hrefused, (Nat.zero_add _).trans hhidden⟩

theorem lineComment_round (h : (c :: l).take 2 = ['/', '/']) (line col : ℕ) :
    ∃ read, c :: l = read ++ (c :: l).dropWhile (fun c ↦ c ≠ '\n') ∧
      RoundReads .code read line col none ⟨(c :: l).dropWhile fun c ↦ c ≠ '\n', line, col⟩ := by
  obtain ⟨l, rfl, rfl⟩ := eq_of_take_two h
  have hnl : ∀ c ∈ l.takeWhile (fun c ↦ c ≠ '\n'), c ≠ '\n' :=
    fun _ hc ↦ by simpa using List.mem_takeWhile_imp hc
  have hsplit := (List.takeWhile_append_dropWhile (p := fun c ↦ decide (c ≠ '\n')) (l := l)).symm
  refine ⟨'/' :: '/' :: l.takeWhile fun c ↦ c ≠ '\n', congrArg _ (congrArg _ hsplit), ?_⟩
  obtain ⟨hafter, hrefused, hhidden⟩ := comment_reads hnl (l.dropWhile fun c ↦ c ≠ '\n')
  refine ⟨settled_of_eq hafter fun d hd ↦ ?_, ?_, fun p n hp ↦ ?_,
    fun t ht ↦ absurd ht.symm (Option.some_ne_none t)⟩
  · have hnot := List.head?_dropWhile_not (fun c ↦ decide (c ≠ '\n')) l
    have hhead : (l.dropWhile fun c ↦ c ≠ '\n').head? = some d := hd
    rw [hhead] at hnot
    simpa using hnot
  · have hopen : Refused .code ('/' :: '/' :: (l.takeWhile fun c ↦ c ≠ '\n') ++
        l.dropWhile fun c ↦ c ≠ '\n') ↔ _ :=
      ((accepted_of_code (.inl rfl) (by decide)).refused_iff).trans
        ((accepted_of_code (.inr rfl) (by decide)).refused_iff)
    exact (hopen.trans hrefused).trans (hafter.symm ▸ Iff.rfl)
  · have hnone : '\n' ∉ '/' :: '/' :: l.takeWhile fun c ↦ c ≠ '\n' := by
      rw [List.mem_cons, List.mem_cons]
      rintro (h | h | h)
      · cases h
      · cases h
      · exact hnl _ h rfl
    have hzero : hiddenNewlines .code ('/' :: '/' :: l.takeWhile fun c ↦ c ≠ '\n') = 0 :=
      (Nat.zero_add _).trans ((Nat.zero_add _).trans hhidden)
    rw [hzero, SourcePos.along_of_noNewline hnone]
    refine ⟨hp.1, fun hn ↦ ?_⟩
    rw [if_pos (show Region.after .code ('/' :: '/' :: _) = .lineComment from hafter)]
    exact (hp.2 hn).trans_lt (Nat.lt_add_of_pos_right (Nat.succ_pos _))

theorem blockComment_round (h : (c :: l).take 2 = ['/', '*']) (line col : ℕ) :
    ∃ read, c :: l = read ++ (blockComment ((c :: l).drop 2) line (col + 2)).rest ∧
      RoundReads .code read line col none (blockComment ((c :: l).drop 2) line (col + 2)) := by
  obtain ⟨l, rfl, rfl⟩ := eq_of_take_two h
  obtain ⟨read, hsplit, hread, hafter⟩ :=
    blockComment_reads (r := .blockComment) (.inl rfl) (fun hstar ↦ absurd hstar (by decide))
      (l := l) line (col + 2)
  refine ⟨'/' :: '*' :: read, congrArg _ (congrArg _ hsplit), Stretch.round ?_ ?_ ?_
    fun t ht ↦ absurd ht.symm (Option.some_ne_none t)⟩
  · exact .step (accepted_of_code (.inl rfl) (by decide)) (by decide)
      (.step (accepted_of_code (.inr rfl) (by decide)) (by decide) hread)
  · exact hafter.elim (fun h ↦ settled_of_eq h trivial) fun h ↦ settled_of_block h.1 h.2.1 h.2.2
  · rcases hafter with h | h
    · exact ne_of_eq_of_ne h (by decide)
    · rcases h.1 with h | h <;> exact ne_of_eq_of_ne h (by decide)

/-- **A round that begins in code.** -/
theorem lexStep_code {token : Option Token} (h : lexStep c ⟨c :: l, line, col⟩ = .ok (token, s)) :
    ∃ read, c :: l = read ++ s.rest ∧ RoundReads .code read line col token s := by
  rw [lexStep] at h
  dsimp only at h
  split_ifs at h with hnl hws hline hblock hdigit hquote hchar hident
  · cases h
    subst hnl
    refine ⟨['\n'], rfl, Stretch.round (.newline ?_ (by decide) .nil) trivial (by decide) ?_⟩
    · exact accepted_of_code (.inl rfl) (by decide)
    · exact fun t ht ↦ absurd ht.symm (Option.some_ne_none t)
  · cases h
    refine ⟨[c], rfl, Stretch.round (.step ?_ hnl .nil) ?_ ?_ ?_⟩
    · exact accepted_of_code (.inl rfl) fun h ↦ absurd (hws.symm.trans h.1) (by decide)
    · exact settled_of_eq (opening_of_isWhitespace hws) trivial
    · exact ne_of_eq_of_ne (opening_of_isWhitespace hws) (by decide)
    · exact fun t ht ↦ absurd ht.symm (Option.some_ne_none t)
  · cases h
    exact lineComment_round hline line col
  · cases h
    exact blockComment_round hblock line col
  · cases h
    exact lexNumber_round (c :: l) line col
  · split at h
    · rename_i value s' hbody
      cases h
      subst hquote
      obtain ⟨read, hsplit, hread, hafter, hfree⟩ := stringBody_reads hbody
      refine ⟨'"' :: read, congrArg _ hsplit, Stretch.round ?_ ?_ ?_ ?_⟩
      · exact .step (accepted_of_code (.inl rfl) (by decide)) (by decide) hread
      · exact settled_of_eq hafter trivial
      · exact ne_of_eq_of_ne hafter (by decide)
      · intro t ht
        cases ht
        exact ⟨rfl, rfl, by decide, hfree⟩
    · cases h
  · cases h
    subst hchar
    obtain ⟨read, hsplit, hread, hfree, hafter⟩ := charBody_reads l line (col + 1) []
    refine ⟨'\'' :: read, congrArg _ hsplit, Stretch.round ?_ ?_ ?_ ?_⟩
    · exact .step (accepted_of_code (.inl rfl) (by decide)) (by decide) hread
    · rcases hafter with h | ⟨h | h, hrest⟩
      · exact settled_of_eq h trivial
      · exact settled_of_eq h hrest
      · exact settled_of_eq h hrest
    · rcases hafter with h | ⟨h | h, -⟩ <;> exact ne_of_eq_of_ne h (by decide)
    · intro t ht
      cases ht
      exact ⟨rfl, rfl, by decide, hfree⟩
  · cases h
    exact lexIdent_round (c :: l) line col
  · cases hop : lexOperator c ⟨c :: l, line, col⟩ with
    | error e =>
      rw [hop] at h
      cases h
    | ok r =>
      rw [hop] at h
      cases h
      refine lexOperator_round (fun hc d hd ↦ ?_) hop
      subst hc
      obtain ⟨l, rfl⟩ := List.head?_eq_some_iff.mp hd
      exact ⟨fun h ↦ hline (h ▸ rfl), fun h ↦ hblock (h ▸ rfl)⟩

theorem lexStep_error {e : LexerError} (h : lexStep c ⟨c :: l, line, col⟩ = .error e) :
    Unexpected c ∨ c = '"' ∧ Refused .string l := by
  rw [lexStep] at h
  dsimp only at h
  split_ifs at h with hnl hws hline hblock hdigit hquote hchar hident
  · split at h
    · cases h
    · rename_i hbody
      exact .inr ⟨hquote, refused_of_stringBody hbody⟩
  · refine .inl ⟨Bool.eq_false_iff.mpr hws, Bool.eq_false_iff.mpr hdigit, hquote, hchar,
      Bool.eq_false_iff.mpr hident, ?_⟩
    cases hone : oneTy c with
    | none => rfl
    | some ty =>
      rw [lexOperator, hone] at h
      dsimp only at h
      split_ifs at h
      · cases h
      · split at h <;> cases h

/-- A round in a block comment has one character left. -/
theorem eq_nil_of_settled (h : Settled r (c :: l)) (hr : r.IsBlock) : l = [] := by
  refine List.eq_nil_of_length_eq_zero (Nat.le_zero.mp (Nat.le_of_succ_le_succ ?_))
  rcases hr with rfl | rfl
  · exact h
  · exact h.1

/-- Behind an operator the first character of a round is read as in code. -/
theorem next_of_slash (h : Settled .slash (c :: l)) :
    Region.next .slash c = Region.next .code c := by
  obtain ⟨hslash, hstar⟩ := h c rfl
  exact (if_neg hslash).trans (if_neg hstar)

theorem refused_slash (h : Settled .slash (c :: l)) :
    Refused .slash (c :: l) ↔ Refused .code (c :: l) := by
  have hblock : ∀ {r : Region}, r.IsCode → ¬r.IsBlock := by
    rintro r (rfl | rfl) <;> decide
  rw [Refused, Refused, next_of_slash h]
  refine or_congr (and_congr_left' ⟨fun _ ↦ .inl rfl, fun _ ↦ .inr rfl⟩)
    (or_congr_left (and_congr_left' ⟨fun h ↦ ?_, fun h ↦ ?_⟩))
  · exact absurd h (hblock (.inr rfl))
  · exact absurd h (hblock (.inl rfl))

/-- The counters between two rounds, away from line comments. -/
theorem Tracks.lags {p : SourcePos} {n : ℕ} (h : Tracks r p n s) (hr : r ≠ .lineComment) :
    Lags p n s.line s.col := by
  refine ⟨h.1, fun hn ↦ ?_⟩
  have hcol := h.2 hn
  rwa [if_neg hr] at hcol

/-- What a round that begins in a region does, with what follows it. -/
structure Follows (r : Region) (read : List Char) (line col : ℕ) (token : Option Token)
    (s : LexState) : Prop where
  settled : Settled (r.after read) s.rest
  refused : Refused r (read ++ s.rest) ↔ Refused (r.after read) s.rest
  tracks : ∀ p n, Tracks r p n ⟨read ++ s.rest, line, col⟩ →
    Tracks (r.after read) (p.along read) (n + hiddenNewlines r read) s
  token : ∀ t ∈ token, t.line = line ∧ t.col = col ∧ r ≠ .lineComment ∧
    (¬r.IsBlock → r.NoComment read)

theorem follows_block {token : Option Token} (hr : r.IsBlock)
    (h : lexStep c ⟨[c], line, col⟩ = .ok (token, s)) :
    s.rest = [] ∧ Follows r [c] line col token s := by
  obtain ⟨read, hsplit, hround⟩ := lexStep_code h
  have hrest : s.rest = [] :=
    List.eq_nil_of_length_eq_zero (Nat.lt_one_iff.mp (lexStep_spec h).1)
  have hread : read = [c] := by
    rw [hrest, List.append_nil] at hsplit
    exact hsplit.symm
  subst hread
  obtain ⟨hsettled, hrefused, htracks, htoken⟩ := hround
  rw [hrest] at hsettled hrefused
  have hline : r ≠ .lineComment := by rcases hr with rfl | rfl <;> decide
  have hnext : (r.next c = .code ∨ (r.next c).IsBlock) ∧ ¬r.HidesNewline := by
    rcases hr with rfl | rfl
    · refine ⟨?_, by decide⟩
      rw [Region.next]
      split_ifs <;> decide
    · refine ⟨?_, by decide⟩
      rw [Region.next]
      split_ifs <;> decide
  have hopening : Region.opening c ≠ .lineComment := by
    rw [Region.opening]
    split_ifs <;> decide
  have hgood : ¬(c = '"' ∨ Unexpected c) := by
    rintro (rfl | hbad)
    · exact hsettled
    · have hend : Refused (Region.after .code [c]) [] := hrefused.mp (.inl ⟨.inl rfl, hbad⟩)
      rcases hend with hend | hend <;> rw [hend] at hsettled <;> exact hsettled
  have hzero : hiddenNewlines r [c] = 0 ∧ hiddenNewlines .code [c] = 0 :=
    ⟨if_neg fun h ↦ hnext.2 h.2, if_neg fun h ↦ absurd h.2 (by decide)⟩
  have hafter : r.after [c] ≠ .lineComment := by
    rcases hnext.1 with h | h | h <;> exact ne_of_eq_of_ne h (by decide)
  refine ⟨hrest, ?_, ?_, fun p n hp ↦ ?_, fun t ht ↦ ?_⟩
  · rw [hrest]
    rcases hnext.1 with h | h
    · exact settled_of_eq h trivial
    · exact settled_of_block h (Nat.zero_le _) fun _ c hc ↦ absurd hc (Option.not_mem_none c)
  · rw [hrest]
    have haccepted : Accepted r c [] := by
      refine ⟨fun h ↦ hgood (.inr h.2), fun h ↦ hgood h.2.2⟩
    exact haccepted.refused_iff
  · have hcounted := (htracks p n (hp.lags hline)).lags hopening
    rw [hzero.2] at hcounted
    rw [hzero.1]
    refine ⟨hcounted.1, fun hn ↦ ?_⟩
    rw [if_neg hafter]
    exact hcounted.2 hn
  · exact ⟨(htoken t ht).1, (htoken t ht).2.1, hline, fun h ↦ absurd hr h⟩

theorem RoundReads.follows {token : Option Token} (h : RoundReads .code read line col token s) :
    Follows .code read line col token s :=
  ⟨h.settled, h.refused, fun p n hp ↦ h.tracks p n (hp.lags (by decide)),
    fun t ht ↦ ⟨(h.token t ht).1, (h.token t ht).2.1, by decide, fun _ ↦ (h.token t ht).2.2⟩⟩

/-- **A round**, wherever it can begin. -/
theorem lexStep_reads {token : Option Token} (hsettled : Settled r (c :: l))
    (h : lexStep c ⟨c :: l, line, col⟩ = .ok (token, s)) :
    ∃ read, c :: l = read ++ s.rest ∧ Follows r read line col token s := by
  have hblock : r.IsBlock → ∃ read, c :: l = read ++ s.rest ∧ Follows r read line col token s := by
    intro hr
    cases eq_nil_of_settled hsettled hr
    obtain ⟨hrest, hfollows⟩ := follows_block hr h
    exact ⟨[c], by rw [hrest]; rfl, hfollows⟩
  cases r with
  | code =>
    obtain ⟨read, hsplit, hround⟩ := lexStep_code h
    exact ⟨read, hsplit, hround.follows⟩
  | slash =>
    obtain ⟨read, hsplit, hround⟩ := lexStep_code h
    obtain ⟨read', rfl⟩ : ∃ read', read = c :: read' := by
      cases read with
      | nil =>
        have hlt := (lexStep_spec h).1
        rw [hsplit] at hlt
        exact absurd hlt (Nat.lt_irrefl _)
      | cons d read' => exact ⟨read', by rw [(List.cons.inj hsplit).1]⟩
    have hnext := next_of_slash hsettled
    have hafter : Region.after .slash (c :: read') = Region.after .code (c :: read') := by
      rw [Region.after_cons, hnext, Region.after_cons]
    have hhidden : hiddenNewlines .slash (c :: read') = hiddenNewlines .code (c :: read') := by
      rw [hiddenNewlines, hiddenNewlines, hnext, if_neg fun h ↦ absurd h.2 (by decide),
        if_neg fun h ↦ absurd h.2 (by decide)]
    refine ⟨c :: read', hsplit, ?_, ?_, fun p n hp ↦ ?_, fun t ht ↦ ?_⟩
    · exact hafter.symm ▸ hround.settled
    · rw [hafter, ← hround.refused, ← hsplit]
      exact refused_slash hsettled
    · rw [hafter, hhidden]
      exact hround.tracks p n (hp.lags (by decide))
    · obtain ⟨hline, hcol, hfree⟩ := hround.token t ht
      exact ⟨hline, hcol, by decide, fun _ ↦ ⟨by decide, hnext ▸ hfree.2⟩⟩
  | lineComment =>
    -- the newline behind the comment sets both counters right
    cases hsettled c rfl
    cases h
    refine ⟨['\n'], rfl, trivial, ?_, fun p n hp ↦ ⟨?_, fun _ ↦ rfl⟩,
      fun t ht ↦ absurd ht (Option.not_mem_none t)⟩
    · have haccepted : Accepted .lineComment '\n' l := accepted_of_not (by decide) (by decide)
      exact haccepted.refused_iff
    · exact (Nat.add_right_comm _ _ _).trans (congrArg (· + 1) hp.1)
  | blockComment => exact hblock (.inl rfl)
  | star => exact hblock (.inr rfl)
  | string => exact hsettled.elim
  | stringEscape => exact hsettled.elim
  | charLiteral => cases hsettled
  | charEscape => cases hsettled

theorem refused_of_lexStep {e : LexerError} (hsettled : Settled r (c :: l))
    (h : lexStep c ⟨c :: l, line, col⟩ = .error e) : Refused r (c :: l) := by
  have hcode : Refused .code (c :: l) := by
    rcases lexStep_error h with hbad | ⟨rfl, hstring⟩
    · exact .inl ⟨.inl rfl, hbad⟩
    · exact .inr (.inr hstring)
  have hblock : r.IsBlock → Refused r (c :: l) := by
    intro hr
    cases eq_nil_of_settled hsettled hr
    exact .inr (.inl ⟨hr, rfl, (lexStep_error h).symm.imp_left And.left⟩)
  cases r with
  | code => exact hcode
  | slash => exact (refused_slash hsettled).mpr hcode
  | lineComment =>
    cases hsettled c rfl
    cases h
  | blockComment => exact hblock (.inl rfl)
  | star => exact hblock (.inr rfl)
  | string => exact hsettled.elim
  | stringEscape => exact hsettled.elim
  | charLiteral => cases hsettled
  | charEscape => cases hsettled

/-! ## Where tokens are read -/

/-- The loop of `tokenize`, noting of each token where the characters it is read from begin and end,
in a source of `n` characters. -/
def spanLoop (n : ℕ) : ℕ → LexState → List (ℕ × ℕ)
  | 0, _ => []
  | fuel + 1, s =>
    match s.rest with
    | [] => [(n, n)]
    | c :: _ =>
      match lexStep c s with
      | .error _ => []
      | .ok (token, s') =>
        (token.toList.map fun _ ↦ (n - s.rest.length, n - s'.rest.length)) ++ spanLoop n fuel s'

/-- Where the tokens of a source are read, `Eof` at its end. -/
def tokenSpans (src : String) : List (ℕ × ℕ) :=
  spanLoop src.toList.length (src.toList.length + 1) ⟨src.toList, 1, 1⟩

end Agex

end Zeroxos
