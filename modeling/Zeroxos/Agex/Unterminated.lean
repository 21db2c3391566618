import Zeroxos.Agex.Regions

/-!
# Constructs that are not closed

`tokenize` refuses a source when a character of code begins no token, or when the input ends in a
string literal.

## What is left open

A character literal and a block comment may both be left open. The scan of such a comment stops in
front of the last character of the input, so that this character is lexed as code: it is refused as
code would be, or it becomes part of a token.

## The condition

So a source with something left open is refused, and no token is read in a comment, exactly when the
source does not end in a character literal or a block comment, or is refused for another reason
(`unterminated_refused_iff`).
-/

namespace Zeroxos

namespace Agex

variable {r : Region} {s : LexState}

/-! ## When a source is refused -/

theorem refused_iff (r : Region) (l : List Char) :
    Refused r l ↔ (∃ pre c post, l = pre ++ c :: post ∧ (r.after pre).IsCode ∧ Unexpected c) ∨
      (∃ pre c, l = pre ++ [c] ∧ (r.after pre).IsBlock ∧ (c = '"' ∨ Unexpected c)) ∨
      (r.after l).IsString := by
  induction l generalizing r with
  | nil =>
    refine ⟨fun h ↦ .inr (.inr h), ?_⟩
    rintro (⟨pre, c, post, h, -⟩ | ⟨pre, c, h, -⟩ | h)
    · exact absurd h.symm (List.append_ne_nil_of_right_ne_nil _ (List.cons_ne_nil _ _))
    · exact absurd h.symm (List.append_ne_nil_of_right_ne_nil _ (List.cons_ne_nil _ _))
    · exact h
  | cons d l ih =>
    rw [Refused, ih]
    constructor
    · rintro (⟨hcode, hd⟩ | ⟨hblock, rfl, hd⟩ | ⟨pre, c, post, rfl, h⟩ | ⟨pre, c, rfl, h⟩ | h)
      · exact .inl ⟨[], d, l, rfl, hcode, hd⟩
      · exact .inr (.inl ⟨[], d, rfl, hblock, hd⟩)
      · exact .inl ⟨d :: pre, c, post, rfl, h⟩
      · exact .inr (.inl ⟨d :: pre, c, rfl, h⟩)
      · exact .inr (.inr h)
    · rintro (⟨pre, c, post, hl, h⟩ | ⟨pre, c, hl, h⟩ | h)
      · cases pre with
        | nil =>
          cases hl
          exact .inl h
        | cons e pre =>
          cases hl
          exact .inr (.inr (.inl ⟨pre, c, post, rfl, h⟩))
      · cases pre with
        | nil =>
          cases hl
          exact .inr (.inl ⟨h.1, rfl, h.2⟩)
        | cons e pre =>
          cases hl
          exact .inr (.inr (.inr (.inl ⟨pre, c, rfl, h⟩)))
      · exact .inr (.inr (.inr (.inr h)))

theorem lexLoop_error_iff {fuel : ℕ} (hfuel : s.rest.length < fuel) (hsettled : Settled r s.rest)
    (tokens : List Token) :
    (∃ e, lexLoop fuel s tokens = some (.error e)) ↔ Refused r s.rest := by
  induction fuel generalizing r s tokens with
  | zero => exact absurd hfuel (Nat.not_lt_zero _)
  | succ fuel ih =>
    obtain ⟨rest, line, col⟩ := s
    rw [lexLoop]
    cases rest with
    | nil =>
      refine ⟨?_, fun h ↦ ?_⟩
      · rintro ⟨e, h⟩
        cases h
      · rcases h with rfl | rfl <;> exact hsettled.elim
    | cons c l =>
      dsimp only
      cases hstep : lexStep c ⟨c :: l, line, col⟩ with
      | error e => exact ⟨fun _ ↦ refused_of_lexStep hsettled hstep, fun _ ↦ ⟨e, rfl⟩⟩
      | ok result =>
        obtain ⟨token, s'⟩ := result
        obtain ⟨read, hsplit, hfollows⟩ := lexStep_reads hsettled hstep
        have hlt : s'.rest.length < fuel :=
          lt_of_lt_of_le (lexStep_spec hstep).1 (Nat.le_of_lt_succ hfuel)
        have hrefused : Refused r (c :: l) ↔ Refused (r.after read) s'.rest := by
          rw [hsplit]
          exact hfollows.refused
        exact (ih hlt hfollows.settled _).trans hrefused.symm

/-- **The lexer returns an error on the refused sources** and on no other. -/
theorem tokenize_error_iff (src : String) :
    (∃ e, tokenize src = some (.error e)) ↔ Refused .code src.toList :=
  lexLoop_error_iff (r := .code) (s := ⟨src.toList, 1, 1⟩) (Nat.lt_succ_self _) trivial []

/-! ## Comments -/

/-- The character is part of a comment: of what it opens with, or of what comes up to its end. -/
def InComment (src : List Char) (k : ℕ) : Prop :=
  (Region.after .code (src.take k)).IsComment ∨ (Region.after .code (src.take (k + 1))).IsComment ∨
    Region.after .code (src.take (k + 1)) = .slash ∧
      (Region.after .code (src.take (k + 2))).IsComment

/-- No token is read from a character of a comment. -/
def CommentsUnread (src : String) : Prop :=
  ∀ span ∈ tokenSpans src, ∀ k, span.1 ≤ k → k < span.2 → ¬InComment src.toList k

theorem not_inComment {pre read rest : List Char} {k : ℕ}
    (hfree : (Region.after .code pre).NoComment read)
    (hsettled : Settled (Region.after .code (pre ++ read)) rest) (hlow : pre.length ≤ k)
    (hhigh : k < (pre ++ read).length) : ¬InComment (pre ++ read ++ rest) k := by
  have htake : ∀ i, pre.length ≤ i → i ≤ (pre ++ read).length →
      ¬(Region.after .code ((pre ++ read ++ rest).take i)).IsComment := by
    intro i hi hi'
    rw [List.take_append_of_le_length hi', List.take_append, List.take_of_length_le hi,
      Region.after_append]
    refine hfree.take ?_
    rw [List.length_append] at hi'
    omega
  rintro (h | h | ⟨hslash, h⟩)
  · exact htake k hlow hhigh.le h
  · exact htake (k + 1) (by omega) hhigh h
  · by_cases hend : k + 2 ≤ (pre ++ read).length
    · exact htake (k + 2) (by omega) hend h
    · -- the slash ends the token
      have hlength : (pre ++ read).length = k + 1 := by omega
      rw [← hlength, List.take_left] at hslash
      rw [hslash] at hsettled
      rw [show k + 2 = (pre ++ read).length + 1 by omega, List.take_length_add_append,
        Region.after_append, hslash] at h
      cases rest with
      | nil => exact absurd h (by decide)
      | cons c rest =>
        have hnext : (Region.next .slash c).IsComment := h
        rw [next_of_slash hsettled] at hnext
        have hopening : ¬(Region.opening c).IsComment := by
          rw [Region.opening]
          split_ifs <;> decide
        exact hopening hnext

/-- A block comment that is left open stays open. -/
theorem isBlock_next {c : Char} {l : List Char} (h : Settled r (c :: l)) (hr : r.IsBlock) :
    (r.next c).IsBlock := by
  have hslash : r = .star → c ≠ '/' := by
    rintro rfl
    exact h.2 c rfl
  rw [next_of_block hr hslash]
  split_ifs
  · exact .inr rfl
  · exact .inl rfl

/-- The rounds from some place on read no token from a comment, when a block comment at the end of
the source makes the lexer refuse what is left. -/
theorem spanLoop_unread {src pre : List Char} {fuel : ℕ} (hsrc : src = pre ++ s.rest)
    (hsettled : Settled (Region.after .code pre) s.rest)
    (hopen : (Region.after .code src).IsBlock → Refused (Region.after .code pre) s.rest) :
    ∀ span ∈ spanLoop src.length fuel s, ∀ k, span.1 ≤ k → k < span.2 → ¬InComment src k := by
  induction fuel generalizing pre s with
  | zero => exact fun _ h ↦ absurd h List.not_mem_nil
  | succ fuel ih =>
    obtain ⟨rest, line, col⟩ := s
    cases rest with
    | nil =>
      rw [spanLoop]
      intro span hspan k hlow hhigh
      rw [List.mem_singleton.mp hspan] at hlow hhigh
      exact absurd hhigh (Nat.not_lt.mpr hlow)
    | cons c l =>
      rw [spanLoop]
      dsimp only at hsrc hsettled hopen ⊢
      cases hstep : lexStep c ⟨c :: l, line, col⟩ with
      | error e => exact fun _ h ↦ absurd h List.not_mem_nil
      | ok result =>
        obtain ⟨token, s'⟩ := result
        obtain ⟨read, hsplit, hfollows⟩ := lexStep_reads hsettled hstep
        have hsrc' : src = pre ++ read ++ s'.rest := by
          rw [hsrc, hsplit, List.append_assoc]
        have hnext := hfollows.settled
        rw [← Region.after_append] at hnext
        dsimp only
        refine List.forall_mem_append.mpr ⟨fun span hspan ↦ ?_, ih hsrc' hnext fun hend ↦ ?_⟩
        · obtain ⟨t, ht, rfl⟩ := List.mem_map.mp hspan
          obtain ⟨-, -, -, hfree⟩ := hfollows.token t (Option.mem_toList.mp ht)
          have hstart : src.length - (c :: l).length = pre.length := by
            rw [hsrc, List.length_append, Nat.add_sub_cancel]
          have hstop : src.length - s'.rest.length = (pre ++ read).length := by
            have hlength : src.length = (pre ++ read).length + s'.rest.length := by
              rw [hsrc', List.length_append]
            rw [hlength, Nat.add_sub_cancel]
          intro k hlow hhigh
          rw [hstart] at hlow
          rw [hstop] at hhigh
          rw [hsrc']
          refine not_inComment (hfree fun hblock ↦ ?_) hnext hlow hhigh
          -- the last character of a block comment is refused
          cases eq_nil_of_settled hsettled hblock
          have hrest : s'.rest = [] := (follows_block hblock hstep).1
          have hread : read = [c] := by
            rw [hrest, List.append_nil] at hsplit
            exact hsplit.symm
          have hend : (Region.after .code src).IsBlock := by
            rw [hsrc, Region.after_append]
            exact isBlock_next hsettled hblock
          have hrefused := hfollows.refused
          rw [← hsplit, hrest, ← Region.after_append] at hrefused
          rw [hrest] at hnext
          rcases hrefused.mp (hopen hend) with h | h <;> rw [h] at hnext <;> exact hnext
        · have hrefused := hfollows.refused
          rw [← hsplit, ← Region.after_append] at hrefused
          exact hrefused.mp (hopen hend)

/-! ## What is left open -/

/-- The source ends in a literal or in a block comment. -/
def LeftOpen (src : String) : Prop :=
  let r := Region.after .code src.toList
  r.IsString ∨ r.IsChar ∨ r.IsBlock

/-- Something that no source should do is refused: to leave a literal or a block comment open. -/
def OpenRefused (src : String) : Prop :=
  LeftOpen src → ∃ e, tokenize src = some (.error e)

/-- Where a character literal or a block comment is left open, something else is refused: a
character of code, or the last character of the comment. -/
def OtherwiseRefused (src : String) : Prop :=
  let r := Region.after .code src.toList
  r.IsChar ∨ r.IsBlock →
    (∃ pre c post, src.toList = pre ++ c :: post ∧ (Region.after .code pre).IsCode ∧ Unexpected c) ∨
      ∃ pre c, src.toList = pre ++ [c] ∧ (Region.after .code pre).IsBlock ∧
        (c = '"' ∨ Unexpected c)

theorem openRefused_iff (src : String) : OpenRefused src ↔ OtherwiseRefused src := by
  rw [OpenRefused, LeftOpen, OtherwiseRefused, tokenize_error_iff, refused_iff]
  refine ⟨fun h hend ↦ ?_, fun h hend ↦ ?_⟩
  · rcases h (.inr hend) with hcode | hblock | hstring
    · exact .inl hcode
    · exact .inr hblock
    · rcases hstring with hr | hr <;> rw [hr] at hend <;> exact absurd hend (by decide)
  · rcases hend with hstring | hend
    · exact .inr (.inr hstring)
    · exact (h hend).imp_right .inl

/-- **Constructs left open are refused, and comments are not read**, exactly when a source that
leaves a character literal or a block comment open is refused for something else. -/
theorem unterminated_refused_iff (src : String) :
    OpenRefused src ∧ CommentsUnread src ↔ OtherwiseRefused src := by
  refine ⟨fun h ↦ (openRefused_iff src).mp h.1, fun h ↦ ⟨(openRefused_iff src).mpr h, ?_⟩⟩
  have hsrc : src.toList = [] ++ src.toList := rfl
  refine spanLoop_unread hsrc trivial fun hblock ↦ ?_
  exact (refused_iff _ _).mpr ((h (.inr hblock)).imp_right .inl)

/-- A character literal that is not closed. -/
theorem open_char_accepted : ¬(OpenRefused "'a" ∧ CommentsUnread "'a") := by
  rintro ⟨hopen, -⟩
  obtain ⟨e, he⟩ := hopen (.inr (.inl (by decide)))
  have hok : tokenize "'a" = some (.ok [⟨.charLiteral, "a", 1, 1⟩, ⟨.eof, "", 1, 3⟩]) := by decide
  rw [hok] at he
  cases he

end Agex

end Zeroxos
