import Zeroxos.Agex.Regions

/-!
# Positions of tokens

Every branch of `tokenize` moves the line and the column itself. Three do not move them as the
source does: an escape takes two columns also where the escaped character is a newline, a character
literal takes one column for a newline, and a line comment takes none at all.

## The condition

Lines that were not counted stay missing to the end. The columns of a line comment are missing only
if the source ends with it, since the newline behind it sets the column right. Positions are exact
when neither happens (`positions_exact_iff`): whether a newline is hidden is told from the region it
is in.
-/

namespace Zeroxos

namespace Agex

variable {r : Region} {s : LexState}

/-- The position of a character of the source. -/
def positionOf (src : List Char) (k : ℕ) : SourcePos := SourcePos.start.along (src.take k)

/-- Every token has the position of its first character, and `Eof` that of the end. -/
def ExactPositions (src : String) (toks : List Token) : Prop :=
  List.Forall₂ (fun span t ↦ positionOf src.toList span.1 = ⟨t.line, t.col⟩) (tokenSpans src) toks

theorem hiddenNewlines_eq_zero_iff (r : Region) (l : List Char) :
    hiddenNewlines r l = 0 ↔
      ∀ pre post, l = pre ++ '\n' :: post → ¬(r.after pre).HidesNewline := by
  induction l generalizing r with
  | nil =>
    refine ⟨fun _ pre post h ↦ ?_, fun _ ↦ rfl⟩
    exact absurd h.symm (List.append_ne_nil_of_right_ne_nil _ (List.cons_ne_nil _ _))
  | cons c l ih =>
    rw [hiddenNewlines, Nat.add_eq_zero_iff, ih]
    constructor
    · rintro ⟨hc, hl⟩ pre post h
      cases pre with
      | nil =>
        cases h
        intro hr
        rw [if_pos ⟨rfl, hr⟩] at hc
        cases hc
      | cons d pre =>
        cases h
        exact hl pre post rfl
    · intro h
      refine ⟨if_neg ?_, fun pre post hl ↦ h (c :: pre) post (congrArg _ hl)⟩
      rintro ⟨rfl, hr⟩
      exact h [] l rfl hr

/-- The position of a token is exact when the lexer was exact at the beginning of its round. -/
theorem Tracks.exact {p : SourcePos} (h : Tracks r p 0 s) (hr : r ≠ .lineComment) :
    p = ⟨s.line, s.col⟩ := by
  obtain ⟨hline, hcol⟩ := h.lags hr
  cases p
  exact congrArg₂ _ hline.symm (hcol rfl).symm

/-- At the end of the source the counters tell whether lines are missing, or columns. -/
theorem Tracks.exact_iff {p : SourcePos} {n : ℕ} (h : Tracks r p n s) :
    p = ⟨s.line, s.col⟩ ↔ n = 0 ∧ r ≠ .lineComment := by
  constructor
  · rintro rfl
    have hn : n = 0 := Nat.add_eq_left.mp h.1
    refine ⟨hn, fun hr ↦ ?_⟩
    have hcol := h.2 hn
    rw [if_pos hr] at hcol
    exact absurd hcol (Nat.lt_irrefl _)
  · rintro ⟨rfl, hr⟩
    exact h.exact hr

theorem lexLoop_exact {src pre : List Char} {fuel n : ℕ} {tokens toks : List Token}
    (h : lexLoop fuel s tokens = some (.ok toks)) (hsrc : src = pre ++ s.rest)
    (hsettled : Settled (Region.after .code pre) s.rest)
    (htracks : Tracks (Region.after .code pre) (SourcePos.start.along pre) n s) :
    ∃ ts, toks = tokens ++ ts ∧
      (List.Forall₂ (fun span t ↦ positionOf src span.1 = ⟨t.line, t.col⟩)
          (spanLoop src.length fuel s) ts ↔
        n + hiddenNewlines (Region.after .code pre) s.rest = 0 ∧
          Region.after .code src ≠ .lineComment) := by
  induction fuel generalizing pre s n tokens with
  | zero => cases h
  | succ fuel ih =>
    obtain ⟨rest, line, col⟩ := s
    rw [lexLoop] at h
    rw [spanLoop]
    cases rest with
    | nil =>
      cases h
      refine ⟨_, rfl, ?_⟩
      have hpre : src = pre := hsrc.trans (List.append_nil pre)
      rw [List.forall₂_cons, and_iff_left List.Forall₂.nil, positionOf, List.take_length, hpre]
      exact htracks.exact_iff
    | cons c l =>
      dsimp only at h hsrc hsettled htracks ⊢
      cases hstep : lexStep c ⟨c :: l, line, col⟩ with
      | error e =>
        rw [hstep] at h
        cases h
      | ok result =>
        obtain ⟨token, s'⟩ := result
        rw [hstep] at h
        obtain ⟨read, hsplit, hfollows⟩ := lexStep_reads hsettled hstep
        have hsrc' : src = pre ++ read ++ s'.rest := by
          rw [hsrc, hsplit, List.append_assoc]
        have hnext := hfollows.settled
        have hmoved := hfollows.tracks _ n (hsplit ▸ htracks)
        rw [← Region.after_append] at hnext hmoved
        rw [← SourcePos.along_append] at hmoved
        obtain ⟨ts, rfl, hts⟩ := ih h hsrc' hnext hmoved
        refine ⟨token.toList ++ ts, List.append_assoc _ _ _, ?_⟩
        rw [hsplit, hiddenNewlines_append, ← Nat.add_assoc, ← Region.after_append, ← hts]
        cases token with
        | none => exact Iff.rfl
        | some t =>
          dsimp only [Option.toList_some]
          rw [List.map_singleton, List.singleton_append, List.singleton_append, List.forall₂_cons]
          refine and_iff_right_of_imp fun hrest ↦ ?_
          have hn : n = 0 := by
            have hzero := (hts.mp hrest).1
            omega
          subst hn
          obtain ⟨hline, hcol, hcode, -⟩ := hfollows.token t rfl
          have hstart : src.length - (c :: l).length = pre.length := by
            rw [hsrc, List.length_append, Nat.add_sub_cancel]
          rw [← hsplit, hstart, positionOf, hsrc, List.take_left, hline, hcol]
          exact htracks.exact hcode

/-- **Positions are exact** exactly when no newline stands behind a backslash in a literal or in a
character literal, and the source does not end in a line comment. -/
theorem positions_exact_iff {src : String} {toks : List Token}
    (h : tokenize src = some (.ok toks)) :
    ExactPositions src toks ↔
      (∀ pre post, src.toList = pre ++ '\n' :: post →
        ¬(Region.after .code pre).HidesNewline) ∧
      Region.after .code src.toList ≠ .lineComment := by
  have hsrc : src.toList = [] ++ src.toList := rfl
  obtain ⟨ts, rfl, hts⟩ := lexLoop_exact (n := 0) h hsrc trivial ⟨rfl, fun _ ↦ rfl⟩
  rw [Nat.zero_add] at hts
  rw [← hiddenNewlines_eq_zero_iff]
  exact hts

/-- A string of two lines, and what follows it. -/
theorem positions_exact_twoLines :
    ExactPositions "\"a\nb\" x"
      [⟨.stringLiteral, "a\nb", 1, 1⟩, ⟨.ident, "x", 2, 4⟩, ⟨.eof, "", 2, 5⟩] :=
  (positions_exact_iff (by decide)).mpr
    ⟨(hiddenNewlines_eq_zero_iff _ _).mp (by decide), by decide⟩

/-- A character literal of two lines. -/
theorem positions_char_newline :
    ∃ toks, tokenize "'\n' x" = some (.ok toks) ∧ ¬ExactPositions "'\n' x" toks := by
  refine ⟨[⟨.charLiteral, "\n", 1, 1⟩, ⟨.ident, "x", 1, 5⟩, ⟨.eof, "", 1, 6⟩], by decide, ?_⟩
  rw [ExactPositions, show tokenSpans "'\n' x" = [(0, 3), (4, 5), (5, 5)] by decide]
  intro h
  cases h with
  | cons _ h =>
    cases h with
    | cons h _ => exact absurd h (by decide)

end Agex

end Zeroxos
