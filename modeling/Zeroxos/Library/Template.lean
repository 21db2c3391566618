import Mathlib.Data.Nat.Digits.Defs

/-!
# Templates

Fixed texts with numbers between them, as formatting macros write them: a number stands in a base,
its most significant digit first, with zeros in front of it up to a width.

The numbers can be read back if each ends where its digits end, that is, if the text behind it
begins with something that is no digit of its base.
-/

namespace Zeroxos

/-- The bytes of a text. -/
def ascii (s : String) : List (BitVec 8) := s.toList.map fun c ↦ BitVec.ofNat 8 c.toNat

/-! ## Numerals -/

/-- The byte of a digit: `0` to `9`, then `a` to `z`. -/
def digitByte (d : ℕ) : BitVec 8 := BitVec.ofNat 8 (if d < 10 then 0x30 + d else 0x57 + d)

/-- The value of a byte as a digit. -/
def digitValue (byte : BitVec 8) : Option ℕ :=
  let b := byte.toNat
  if 0x30 ≤ b ∧ b < 0x3A then some (b - 0x30)
  else if 0x61 ≤ b ∧ b < 0x7B then some (b - 0x57)
  else none

/-- The value of a byte as a digit of a base. -/
def digit? (base : ℕ) (byte : BitVec 8) : Option ℕ := (digitValue byte).filter (· < base)

/-- A number in a base, with a digit at least, and with zeros in front up to a width. -/
def numeral (base width n : ℕ) : List (BitVec 8) :=
  ((Nat.digits base n).reverse.leftpad (max 1 width) 0).map digitByte

/-- Read digits behind those of a number, as long as there are any. -/
def readDigits (base : ℕ) : ℕ → List (BitVec 8) → ℕ × List (BitVec 8)
  | n, [] => (n, [])
  | n, byte :: s =>
    match digit? base byte with
    | some d => readDigits base (n * base + d) s
    | none => (n, byte :: s)

theorem digitValue_digitByte {d : ℕ} (hd : d < 36) : digitValue (digitByte d) = some d := by
  have hbyte : (digitByte d).toNat = if d < 10 then 0x30 + d else 0x57 + d := by
    rw [digitByte, BitVec.toNat_ofNat, Nat.mod_eq_of_lt]
    split_ifs <;> omega
  rw [digitValue, hbyte]
  by_cases hten : d < 10
  · simp only [if_pos hten]
    rw [if_pos ⟨by omega, by omega⟩, Nat.add_sub_cancel_left]
  · simp only [if_neg hten]
    rw [if_neg (by omega), if_pos ⟨by omega, by omega⟩, Nat.add_sub_cancel_left]

theorem digit?_digitByte {base d : ℕ} (hd : d < base) (hbase : base ≤ 36) :
    digit? base (digitByte d) = some d := by
  rw [digit?, digitValue_digitByte (by omega), Option.filter_some, if_pos (decide_eq_true hd)]

theorem readDigits_append {base : ℕ} (hbase : base ≤ 36) {ds : List ℕ} (hds : ∀ d ∈ ds, d < base)
    (n : ℕ) (s : List (BitVec 8)) : readDigits base n (ds.map digitByte ++ s)
      = readDigits base (ds.foldl (fun n d ↦ n * base + d) n) s := by
  induction ds generalizing n with
  | nil => rfl
  | cons d ds ih =>
    rw [List.map_cons, List.cons_append, readDigits,
      digit?_digitByte (hds d List.mem_cons_self) hbase, List.foldl_cons]
    exact ih (fun d' hd' ↦ hds d' (List.mem_cons_of_mem d hd')) _

theorem foldl_leftpad (base width n : ℕ) :
    ((Nat.digits base n).reverse.leftpad width 0).foldl (fun n d ↦ n * base + d) 0 = n := by
  have hzeros : ∀ k, (List.replicate k 0).foldl (fun n d ↦ n * base + d) 0 = 0 := fun k ↦ by
    induction k with
    | zero => rfl
    | succ k ih => rwa [List.replicate_succ, List.foldl_cons, Nat.zero_mul, Nat.zero_add]
  have hofDigits : Nat.ofDigits base (Nat.digits base n) = n := Nat.ofDigits_digits base n
  rw [Nat.ofDigits_eq_foldr] at hofDigits
  rw [List.leftpad, List.foldl_append, hzeros, List.foldl_reverse]
  refine Eq.trans (congrArg (fun f ↦ List.foldr f 0 (Nat.digits base n)) ?_) hofDigits
  funext d m
  rw [Nat.mul_comm, Nat.add_comm, Nat.cast_id]

/-- **A number is read as it was written**, up to what is no digit. -/
theorem readDigits_numeral {base : ℕ} (hone : 1 < base) (hbase : base ≤ 36) (width n : ℕ)
    {byte : BitVec 8} (hbyte : digit? base byte = none) (s : List (BitVec 8)) :
    readDigits base 0 (numeral base width n ++ byte :: s) = (n, byte :: s) := by
  rw [numeral, readDigits_append hbase, foldl_leftpad, readDigits, hbyte]
  intro d hd
  rw [List.leftpad, List.mem_append, List.mem_replicate, List.mem_reverse] at hd
  rcases hd with ⟨-, rfl⟩ | hd
  · omega
  · exact Nat.digits_lt_base hone hd

/-! ## Templates -/

/-- A piece of a template. -/
inductive Piece
  | text (s : List (BitVec 8))
  | number (base width : ℕ)

/-- Numbers in the places of a template. -/
def render : List Piece → List ℕ → List (BitVec 8)
  | [], _ => []
  | .text s :: t, ns => s ++ render t ns
  | .number base width :: t, n :: ns => numeral base width n ++ render t ns
  | .number _ _ :: _, [] => []

/-- How many numbers a template has places for. -/
def arity : List Piece → ℕ
  | [] => 0
  | .text _ :: t => arity t
  | .number _ _ :: t => arity t + 1

/-- What follows a number of this base is no digit. -/
def endsNumber (base : ℕ) : List Piece → Bool
  | .text (byte :: _) :: _ => digit? base byte = none
  | _ => false

/-- Every number ends where its digits do. -/
def separated : List Piece → Bool
  | [] => true
  | .text _ :: t => separated t
  | .number base _ :: t => 1 < base && base ≤ 36 && endsNumber base t && separated t

/-- Read the numbers of a template off a text, which may go on. -/
def scan : List Piece → List (BitVec 8) → Option (List ℕ × List (BitVec 8))
  | [], s => some ([], s)
  | .text s' :: t, s => if s' <+: s then scan t (s.drop s'.length) else none
  | .number base _ :: t, s => do
    let (n, s) := readDigits base 0 s
    let (ns, s) ← scan t s
    some (n :: ns, s)

/-- **The numbers of a template are read as they were written.** -/
theorem scan_render {t : List Piece} (h : separated t) {ns : List ℕ} (hns : ns.length = arity t)
    (s : List (BitVec 8)) : scan t (render t ns ++ s) = some (ns, s) := by
  induction t generalizing ns with
  | nil =>
    rw [List.length_eq_zero_iff.mp hns]
    rfl
  | cons piece t ih =>
    cases piece with
    | text s' =>
      rw [render, List.append_assoc, scan, if_pos (List.prefix_append _ _), List.drop_left]
      exact ih h hns
    | number base width =>
      simp only [separated, Bool.and_eq_true, decide_eq_true_eq] at h
      obtain ⟨⟨⟨hone, hbase⟩, hends⟩, hrest⟩ := h
      cases ns with
      | nil => cases hns
      | cons n ns =>
        have hns' : ns.length = arity t := Nat.succ.inj hns
        obtain ⟨byte, s', t', rfl⟩ : ∃ byte s' t', t = .text (byte :: s') :: t' := by
          match t, hends with
          | .text (byte :: s') :: t', _ => exact ⟨byte, s', t', rfl⟩
        have hbyte : digit? base byte = none := of_decide_eq_true hends
        have hread := ih hrest hns'
        rw [render, List.cons_append, List.cons_append] at hread
        rw [render, render, List.append_assoc, List.cons_append, List.cons_append, scan,
          readDigits_numeral hone hbase width n hbyte]
        simp only [hread, Option.bind_eq_bind, Option.bind_some]

/-- Texts one after the other. -/
def renderAll (lines : List (List Piece × List ℕ)) : List (BitVec 8) :=
  lines.flatMap fun l ↦ render l.1 l.2

/-- Read templates one after the other. -/
def scanAll : List (List Piece) → List (BitVec 8) → Option (List (List ℕ) × List (BitVec 8))
  | [], s => some ([], s)
  | t :: ts, s => do
    let (ns, s) ← scan t s
    let (nss, s) ← scanAll ts s
    some (ns :: nss, s)

theorem scanAll_renderAll {lines : List (List Piece × List ℕ)}
    (h : ∀ l ∈ lines, separated l.1 ∧ l.2.length = arity l.1) (s : List (BitVec 8)) :
    scanAll (lines.map Prod.fst) (renderAll lines ++ s) = some (lines.map Prod.snd, s) := by
  induction lines with
  | nil => rfl
  | cons l lines ih =>
    obtain ⟨hseparated, harity⟩ := h l List.mem_cons_self
    have hrest := ih fun l' hl' ↦ h l' (List.mem_cons_of_mem l hl')
    have hcons : renderAll (l :: lines) = render l.1 l.2 ++ renderAll lines := rfl
    rw [hcons, List.append_assoc, List.map_cons, scanAll, scan_render hseparated harity]
    simp only [hrest, Option.bind_eq_bind, Option.bind_some, List.map_cons]

end Zeroxos
