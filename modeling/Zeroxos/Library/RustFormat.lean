import Mathlib.Data.Bool.AllAny
import Mathlib.Data.List.Basic
import Mathlib.Data.List.TakeWhile
import Mathlib.Order.Nat
import Mathlib.Tactic.Common

/-!
# Rust string literals and format strings

What `rustc` reads of the text of a string literal, and what the formatting macros read of its
value: `{}` stands for an argument, `{{` and `}}` for braces. Both lose characters wherever
something is not written as it is, so characters and placeholders that are written one after the
other are read back exactly when no character is special.
-/

namespace Zeroxos

/-! ## String literals -/

/-- The value of a hexadecimal digit. -/
def hexDigit (c : Char) : Option ℕ :=
  if '0' ≤ c ∧ c ≤ '9' then some (c.toNat - '0'.toNat)
  else if 'a' ≤ c ∧ c ≤ 'f' then some (c.toNat - 'a'.toNat + 10)
  else if 'A' ≤ c ∧ c ≤ 'F' then some (c.toNat - 'A'.toNat + 10)
  else none

/-- The number that hexadecimal digits denote. -/
def hexValue (digits : List Char) : Option ℕ :=
  digits.foldlM (fun n c ↦ (hexDigit c).map (16 * n + ·)) 0

/-- The character of a number, if it has one. -/
def charOf (n : ℕ) : Option Char := if n.isValidChar then some (Char.ofNat n) else none

/-- What is behind a backslash: the character that is meant, or none for a line that is continued,
and what follows. -/
def readEscape : List Char → Option (Option Char × List Char)
  | 'n' :: l => some (some '\n', l)
  | 'r' :: l => some (some '\r', l)
  | 't' :: l => some (some '\t', l)
  | '\\' :: l => some (some '\\', l)
  | '0' :: l => some (some '\x00', l)
  | '\'' :: l => some (some '\'', l)
  | '"' :: l => some (some '"', l)
  | 'x' :: a :: b :: l => do
    let n ← hexValue [a, b]
    if n < 128 then some (← charOf n, l) else none
  | 'u' :: '{' :: l => do
    let digits := (l.takeWhile (· ≠ '}')).filter (· ≠ '_')
    let n ← hexValue digits
    if digits.isEmpty ∨ 6 < digits.length then none
    else some (← charOf n, (l.dropWhile (· ≠ '}')).tail)
  | '\n' :: l => some (none, l.dropWhile fun c ↦ c = ' ' || c = '\n' || c = '\t' || c = '\r')
  | _ => none

theorem readEscape_length {l l' : List Char} {o : Option Char}
    (h : readEscape l = some (o, l')) : l'.length < l.length := by
  have hdrop : ∀ (p : Char → Bool) (l : List Char), (l.dropWhile p).length ≤ l.length :=
    fun p l ↦ (List.dropWhile_sublist p).length_le
  unfold readEscape at h
  split at h
  case h_8 =>
    obtain ⟨n, -, h⟩ := Option.bind_eq_some_iff.mp h
    split_ifs at h
    obtain ⟨c, -, h⟩ := Option.bind_eq_some_iff.mp h
    cases h
    simp only [List.length_cons]
    omega
  case h_9 =>
    obtain ⟨n, -, h⟩ := Option.bind_eq_some_iff.mp h
    split_ifs at h
    obtain ⟨c, -, h⟩ := Option.bind_eq_some_iff.mp h
    cases h
    rw [List.length_tail]
    exact ((Nat.sub_le _ _).trans (hdrop _ _)).trans_lt (Nat.lt_succ_of_lt (Nat.lt_succ_self _))
  case h_10 =>
    cases h
    exact Nat.lt_succ_of_le (hdrop _ _)
  case h_11 => cases h
  all_goals
    cases h
    exact Nat.lt_succ_self _

/-- A string literal behind its opening quote: its value, and what follows the closing one. -/
def readLiteral : List Char → Option (List Char × List Char)
  | [] => none
  | '"' :: l => some ([], l)
  | '\\' :: l =>
    match _hesc : readEscape l with
    | none => none
    | some (o, l') => (readLiteral l').map fun r ↦ (o.toList ++ r.1, r.2)
  -- a carriage return belongs to the end of a line
  | '\r' :: '\n' :: l => (readLiteral l).map fun r ↦ ('\n' :: r.1, r.2)
  | c :: l => if c = '\r' then none else (readLiteral l).map fun r ↦ (c :: r.1, r.2)
termination_by l => l.length
decreasing_by
  · have hlt := readEscape_length ‹_›
    simp only [List.length_cons]
    omega
  · simp only [List.length_cons]
    omega
  · exact Nat.lt_succ_self _

/-- A character that a string literal has as it is. -/
def IsLiteralChar (c : Char) : Prop := c ≠ '"' ∧ c ≠ '\\' ∧ c ≠ '\r'

theorem readLiteral_cons {c : Char} (hc : IsLiteralChar c) (l : List Char) :
    readLiteral (c :: l) = (readLiteral l).map fun r ↦ (c :: r.1, r.2) := by
  obtain ⟨hquote, hslash, hreturn⟩ := hc
  rw [readLiteral]
  · rw [if_neg hreturn]
  · exact hquote
  · exact hslash
  · rintro l' rfl -
    exact hreturn rfl

theorem readLiteral_plain {v : List Char} (h : ∀ c ∈ v, IsLiteralChar c) (rest : List Char) :
    readLiteral (v ++ '"' :: rest) = some (v, rest) := by
  induction v with
  | nil => rw [List.nil_append, readLiteral]
  | cons c v ih =>
    obtain ⟨hc, hv⟩ := List.forall_mem_cons.mp h
    rw [List.cons_append, readLiteral_cons hc, ih hv]
    rfl

/-- A literal has a character for its closing quote and one for each of its value, and only if it
has no more it is written as it is. -/
theorem readLiteral_length {l v rest : List Char} (h : readLiteral l = some (v, rest)) :
    v.length + 1 + rest.length ≤ l.length ∧
      (v.length + 1 + rest.length = l.length →
        l = v ++ '"' :: rest ∧ ∀ c ∈ v, IsLiteralChar c) := by
  fun_induction readLiteral l generalizing v rest with
  | case1 => cases h
  | case2 l =>
    cases h
    exact ⟨by simp only [List.length_nil, List.length_cons]; omega,
      fun _ ↦ ⟨rfl, List.forall_mem_nil _⟩⟩
  | case3 l hesc => cases h
  | case4 l o l' hesc ih =>
    obtain ⟨r, hr, heq⟩ := Option.map_eq_some_iff.mp h
    cases heq
    obtain ⟨hle, -⟩ := ih hr
    have hlt := readEscape_length hesc
    have ho : o.toList.length ≤ 1 := by cases o <;> simp
    rw [List.length_append, List.length_cons]
    exact ⟨by omega, fun _ ↦ by omega⟩
  | case5 l ih =>
    obtain ⟨r, hr, heq⟩ := Option.map_eq_some_iff.mp h
    cases heq
    obtain ⟨hle, -⟩ := ih hr
    simp only [List.length_cons]
    exact ⟨by omega, fun _ ↦ by omega⟩
  | case6 => cases h
  | case7 l c hquote hslash _ hreturn ih =>
    obtain ⟨r, hr, heq⟩ := Option.map_eq_some_iff.mp h
    cases heq
    obtain ⟨hle, hplain⟩ := ih hr
    simp only [List.length_cons]
    refine ⟨by omega, fun hlength ↦ ?_⟩
    obtain ⟨hl, hv⟩ := hplain (by omega)
    refine ⟨by rw [hl]; rfl, List.forall_mem_cons.mpr ⟨⟨hquote, hslash, hreturn⟩, hv⟩⟩

/-! ## Format strings -/

/-- A piece of a format string. -/
inductive FormatItem
  | char (c : Char)
  | placeholder
deriving DecidableEq, Repr

/-- What the formatting macros read of a format string: `{}` is a placeholder, `{{` and `}}` are
braces, and there are no other braces. -/
def readFormat : List Char → Option (List FormatItem)
  | [] => some []
  | '{' :: '{' :: l => (readFormat l).map (.char '{' :: ·)
  | '}' :: '}' :: l => (readFormat l).map (.char '}' :: ·)
  | '{' :: '}' :: l => (readFormat l).map (.placeholder :: ·)
  | c :: l => if c = '{' ∨ c = '}' then none else (readFormat l).map (.char c :: ·)

/-- A format string behind its opening quote, and what follows the closing one. -/
def readFormatLiteral (l : List Char) : Option (List FormatItem × List Char) := do
  let (fmt, rest) ← readLiteral l
  let items ← readFormat fmt
  return (items, rest)

/-- A call of `println!`: its format string, if it has one, and what follows. -/
def readPrintln : List Char → Option (List FormatItem × List Char)
  | 'p' :: 'r' :: 'i' :: 'n' :: 't' :: 'l' :: 'n' :: '!' :: '(' :: '"' :: l => readFormatLiteral l
  | 'p' :: 'r' :: 'i' :: 'n' :: 't' :: 'l' :: 'n' :: '!' :: '(' :: l => some ([], l)
  | _ => none

namespace FormatItem

/-- The item without any escape. -/
def verbatim : FormatItem → List Char
  | char c => [c]
  | placeholder => ['{', '}']

/-- Neither a brace nor a character that a string literal does not have as it is. -/
def IsPlain : FormatItem → Prop
  | char c => c ≠ '{' ∧ c ≠ '}' ∧ IsLiteralChar c
  | placeholder => True

/-- No brace that would have to be doubled. -/
def IsUnbraced : FormatItem → Prop
  | char c => c ≠ '{' ∧ c ≠ '}'
  | placeholder => True

end FormatItem

open FormatItem

theorem readFormat_verbatim {items : List FormatItem} (h : ∀ i ∈ items, i.IsUnbraced) :
    readFormat (items.flatMap verbatim) = some items := by
  induction items with
  | nil => rfl
  | cons i items ih =>
    obtain ⟨hi, hitems⟩ := List.forall_mem_cons.mp h
    rw [List.flatMap_cons]
    cases i with
    | placeholder =>
      rw [verbatim, List.cons_append, List.cons_append, List.nil_append, readFormat, ih hitems]
      rfl
    | char c =>
      obtain ⟨hopen, hclose⟩ := hi
      rw [verbatim, List.cons_append, List.nil_append, readFormat,
        if_neg (not_or.mpr ⟨hopen, hclose⟩), ih hitems]
      · rfl
      · exact fun _ h _ ↦ hopen h
      · exact fun _ h _ ↦ hclose h
      · exact fun _ h _ ↦ hopen h

/-- Items that are read take no more room when they are written as they are, and less when there is
a brace among them. -/
theorem readFormat_length {l : List Char} {items : List FormatItem}
    (h : readFormat l = some items) : (items.flatMap verbatim).length ≤ l.length ∧
      ((items.flatMap verbatim).length = l.length → ∀ i ∈ items, i.IsUnbraced) := by
  fun_induction readFormat l generalizing items with
  | case1 =>
    cases h
    exact ⟨le_rfl, fun _ ↦ List.forall_mem_nil _⟩
  | case2 l ih =>
    obtain ⟨rest, hrest, rfl⟩ := Option.map_eq_some_iff.mp h
    have hle := (ih hrest).1
    simp only [List.flatMap_cons, List.length_append, List.length_cons, verbatim, List.length_nil]
    exact ⟨by omega, fun _ ↦ by omega⟩
  | case3 l ih =>
    obtain ⟨rest, hrest, rfl⟩ := Option.map_eq_some_iff.mp h
    have hle := (ih hrest).1
    simp only [List.flatMap_cons, List.length_append, List.length_cons, verbatim, List.length_nil]
    exact ⟨by omega, fun _ ↦ by omega⟩
  | case4 l ih =>
    obtain ⟨rest, hrest, rfl⟩ := Option.map_eq_some_iff.mp h
    obtain ⟨hle, hplain⟩ := ih hrest
    simp only [List.flatMap_cons, List.length_append, List.length_cons, verbatim, List.length_nil]
    exact ⟨by omega, fun _ ↦ List.forall_mem_cons.mpr ⟨trivial, hplain (by omega)⟩⟩
  | case5 => cases h
  | case6 c l _ _ _ hc ih =>
    obtain ⟨rest, hrest, rfl⟩ := Option.map_eq_some_iff.mp h
    obtain ⟨hle, hplain⟩ := ih hrest
    simp only [List.flatMap_cons, List.length_append, List.length_cons, verbatim, List.length_nil]
    exact ⟨by omega, fun _ ↦ List.forall_mem_cons.mpr ⟨not_or.mp hc, hplain (by omega)⟩⟩

/-- **A format string that is written as it is** is read back exactly when it has no special
character. -/
theorem readFormatLiteral_verbatim_iff (items : List FormatItem) (rest : List Char) :
    readFormatLiteral (items.flatMap verbatim ++ '"' :: rest) = some (items, rest) ↔
      ∀ i ∈ items, i.IsPlain := by
  constructor
  · intro h
    obtain ⟨⟨fmt, rest'⟩, hliteral, h⟩ := Option.bind_eq_some_iff.mp h
    obtain ⟨items', hformat, heq⟩ := Option.bind_eq_some_iff.mp h
    cases heq
    obtain ⟨hle, hplain⟩ := readLiteral_length hliteral
    obtain ⟨hle', hunbraced⟩ := readFormat_length hformat
    rw [List.length_append, List.length_cons] at hle hplain
    -- nothing is lost in either step
    obtain ⟨heq, hchars⟩ := hplain (by omega)
    have hfmt : items.flatMap verbatim = fmt := List.append_cancel_right heq
    intro i hi
    have hbraces := hunbraced (by rw [hfmt]) i hi
    cases i with
    | placeholder => trivial
    | char c =>
      refine ⟨hbraces.1, hbraces.2, hchars c ?_⟩
      rw [← hfmt]
      exact List.mem_flatMap.mpr ⟨_, hi, List.mem_singleton_self c⟩
  · intro h
    have hchars : ∀ c ∈ items.flatMap verbatim, IsLiteralChar c := by
      intro c hc
      obtain ⟨i, hi, hmem⟩ := List.mem_flatMap.mp hc
      have hplain := h i hi
      cases i with
      | placeholder =>
        have hall : ∀ c ∈ ['{', '}'], c ≠ '"' ∧ c ≠ '\\' ∧ c ≠ '\r' :=
          List.all_iff_forall_prop.mp (by decide)
        exact hall c hmem
      | char d =>
        obtain rfl := List.mem_singleton.mp hmem
        exact hplain.2.2
    have hunbraced : ∀ i ∈ items, i.IsUnbraced := by
      intro i hi
      have hplain := h i hi
      cases i with
      | placeholder => trivial
      | char c => exact ⟨hplain.1, hplain.2.1⟩
    rw [readFormatLiteral, readLiteral_plain hchars]
    show (do
      let items ← readFormat (items.flatMap verbatim)
      return (items, rest)) = some (items, rest)
    rw [readFormat_verbatim hunbraced]
    rfl

end Zeroxos
