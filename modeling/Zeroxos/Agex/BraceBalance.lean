import Zeroxos.Agex.Lines
import Zeroxos.Agex.ParserNames
import Zeroxos.Agex.Spelling
import Zeroxos.Library.Nesting

/-!
# The braces of the output

The generator writes an opening brace at the end of one line and the closing brace in another one,
and some lines have both.

## Depth

With no braces in the texts that are taken from the tree the output as a whole is balanced: the text
of an expression is, a line leads from one depth to the next, and the lines of a statement or a
declaration lead back to the depth that they begin at (`generate_braces`). Depth and indentation go
together, and the indentation is back at 0 after every declaration.
-/

namespace Zeroxos

namespace Agex

variable {s t : String} {k k' k'' : ℕ}

/-! ## Texts -/

/-- The braces of a text lead from depth `k` to depth `k'`. -/
abbrev Braces (k : ℕ) (s : String) (k' : ℕ) : Prop := Nests '\x7b' '\x7d' k s.toList k'

theorem Braces.append (hs : Braces k s k') (ht : Braces k' t k'') : Braces k (s ++ t) k'' := by
  rw [Braces, String.toList_append]
  exact Nests.append hs ht

/-- A text closes just what it opens. -/
def Closed (s : String) : Prop := Braces 0 s 0

/-- A text leaves one brace open. -/
def OpensBlock (s : String) : Prop := Braces 0 s 1

instance (s : String) : Decidable (Closed s) := inferInstanceAs (Decidable (Nests _ _ _ _ _))

instance (s : String) : Decidable (OpensBlock s) := inferInstanceAs (Decidable (Nests _ _ _ _ _))

theorem Braceless.closed (h : Braceless s) : Closed s := Nests.of_notMem h.1 h.2 0

namespace Closed

theorem braces (h : Closed s) (k : ℕ) : Braces k s k := by
  have hlift := Nests.lift h k
  rwa [Nat.zero_add] at hlift

theorem append (hs : Closed s) (ht : Closed t) : Closed (s ++ t) := Braces.append hs ht

theorem enclose {op cl : String} (hop : OpensBlock op) (hs : Closed s) (hcl : Braces 1 cl 0) :
    Closed (op ++ s ++ cl) := (Braces.append hop (hs.braces 1)).append hcl

theorem ite {P : Prop} [Decidable P] (hs : Closed s) (ht : Closed t) :
    Closed (if P then s else t) := by
  split_ifs
  · exact hs
  · exact ht

theorem join {sep : String} {l : List String} (hsep : Closed sep) (h : ∀ s ∈ l, Closed s) :
    Closed (Agex.join sep l) := by
  induction l with
  | nil => exact Nests.nil 0
  | cons s l ih =>
    obtain ⟨hs, hl⟩ := List.forall_mem_cons.mp h
    cases l with
    | nil => exact hs
    | cons t l => exact (hs.append hsep).append (ih hl)

theorem commas {l : List String} (h : ∀ s ∈ l, Closed s) : Closed (Agex.join ", " l) :=
  .join (by decide) h

theorem opens (h : Closed s) : OpensBlock (s ++ " \x7b") :=
  Braces.append h (by decide : OpensBlock " \x7b")

theorem opensInline (h : Closed s) : OpensBlock (s ++ " \x7b ") :=
  Braces.append h (by decide : OpensBlock " \x7b ")

end Closed

theorem OpensBlock.braces (h : OpensBlock s) (k : ℕ) : Braces k s (k + 1) := by
  have hlift := Nests.lift h k
  rwa [Nat.zero_add, Nat.add_comm] at hlift

/-- There are no braces in the texts. -/
def AllBraceless (l : List Text) : Prop :=
  ∀ t ∈ l, match t with | .literal value | .word value => Braceless value

theorem allBraceless_append {k l : List Text} :
    AllBraceless (k ++ l) ↔ AllBraceless k ∧ AllBraceless l := List.forall_mem_append

theorem allBraceless_word {value : String} {l : List Text} :
    AllBraceless (.word value :: l) ↔ Braceless value ∧ AllBraceless l := List.forall_mem_cons

theorem allBraceless_literal {value : String} {l : List Text} :
    AllBraceless (.literal value :: l) ↔ Braceless value ∧ AllBraceless l := List.forall_mem_cons

theorem allBraceless_flatMap {α : Type} {f : α → List Text} {l : List α} :
    AllBraceless (l.flatMap f) ↔ ∀ a ∈ l, AllBraceless (f a) := List.forall_mem_flatMap

theorem allBraceless_words {l : List String} :
    AllBraceless (l.map .word) ↔ ∀ s ∈ l, Braceless s := List.forall_mem_map

/-! ## Types -/

theorem baseType_closed {name : String} (h : Braceless name) : Closed (baseType name) := by
  have hall : ∀ k ∈ agexTypeMap, Closed k.2 := by decide
  rw [baseType]
  cases hfind : agexTypeMap.find? fun k ↦ k.1 = name with
  | none => exact h.closed
  | some k => exact hall k (List.mem_of_find?_eq_some hfind)

theorem orOption_closed (nullable : Bool) (h : Closed s) : Closed (orOption nullable s) :=
  .ite (((by decide : Closed "Option<").append h).append (by decide)) h

mutual

theorem genType_closed :
    (t : TypeNode) → AllBraceless (typeTexts t) → Closed (genType t)
  | .infer nullable, _ => by
    rw [genType]
    exact .ite (by decide) (by decide)
  | .named name nullable, h => by
    rw [genType]
    exact orOption_closed nullable (baseType_closed (allBraceless_word.mp h).1)
  | .generic name args nullable, h => by
    obtain ⟨hname, hargs⟩ := allBraceless_word.mp h
    have hjoin : Closed (join ", " (genTypes args)) :=
      .commas (genTypes_closed args hargs)
    rw [genType]
    exact orOption_closed nullable
      ((((baseType_closed hname).append (by decide)).append hjoin).append (by decide))
  | .pointer inner nullable, h => by
    rw [genType]
    exact orOption_closed nullable
      ((by decide : Closed "*mut ").append (genType_closed inner h))

theorem genTypes_closed :
    (l : List TypeNode) → AllBraceless (typesTexts l) → ∀ s ∈ genTypes l, Closed s
  | [], _ => List.forall_mem_nil _
  | t :: l, h => List.forall_mem_cons.mpr
    ⟨genType_closed t (allBraceless_append.mp h).1,
      genTypes_closed l (allBraceless_append.mp h).2⟩

end

/-! ## Expressions -/

/-- There are no braces in the names of the fields of sealed classes. -/
def BracelessFields (L : List SealedClass) : Prop := ∀ c ∈ L, ∀ v ∈ c.2, ∀ f ∈ v.2, Braceless f

theorem fieldName_closed {fieldNames : List String} (h : ∀ f ∈ fieldNames, Braceless f) (i : ℕ) :
    Closed (fieldName fieldNames i) :=
  Braceless.closed ⟨notMem_fieldName (by decide) (by decide) (fun f hf ↦ (h f hf).1) i,
    notMem_fieldName (by decide) (by decide) (fun f hf ↦ (h f hf).2) i⟩

theorem headD_closed {texts : List String} (h : ∀ s ∈ texts, Closed s) :
    Closed (texts.headD "0") := by
  cases texts with
  | nil => decide
  | cons s texts => exact h s List.mem_cons_self

theorem braceless_ident {e : Expr} {name : String} (h : AllBraceless (exprTexts e))
    (hname : e.ident? = some name) : Braceless name := by
  cases e with
  | ident name' =>
    obtain rfl := Option.some.inj hname
    exact (allBraceless_word.mp h).1
  | _ => cases hname

theorem args_closed {texts : List String} (h : ∀ s ∈ texts, Closed s) :
    Closed ("(" ++ join ", " texts ++ ")") :=
  ((by decide : Closed "(").append (.commas h)).append (by decide)

theorem placeholder_closed {e : Expr} (h : AllBraceless (exprTexts e)) :
    Closed (placeholder e) := by
  cases e with
  | string value => exact (allBraceless_literal.mp h).1.closed
  | _ => exact (by decide : Closed "\x7b\x7d")

theorem printlnText_closed {args : List Expr} {texts : List String}
    (hargs : AllBraceless (exprsTexts args)) (htexts : ∀ s ∈ texts, Closed s) :
    Closed (printlnText args texts) := by
  have hfmt : Closed (join " " (args.map placeholder)) := by
    rw [exprsTexts_eq] at hargs
    refine .join (by decide) (List.forall_mem_map.mpr fun e he ↦ ?_)
    exact placeholder_closed (allBraceless_flatMap.mp hargs e he)
  have hrest : ∀ s ∈ nonStrings args texts, Closed s := by
    rw [nonStrings]
    refine List.forall_mem_map.mpr fun p hp ↦ htexts p.2 ?_
    exact (List.of_mem_zip (List.mem_of_mem_filter hp)).2
  have hopen : Closed ("println!(\"" ++ join " " (args.map placeholder)) :=
    (by decide : Closed "println!(\"").append hfmt
  refine .ite (by decide) (.ite (hopen.append (by decide)) ?_)
  exact ((hopen.append (by decide)).append (.commas hrest)).append (by decide)

theorem variantText_closed {enumName variant : String} {fieldNames args : List String}
    (henum : Closed enumName) (hvariant : Closed variant)
    (hfields : ∀ f ∈ fieldNames, Braceless f) (hargs : ∀ s ∈ args, Closed s) :
    Closed (variantText enumName variant fieldNames args) := by
  have hpairs : ∀ s ∈ args.mapIdx fun i arg ↦ fieldName fieldNames i ++ ": " ++ arg,
      Closed s := by
    intro s hs
    obtain ⟨i, hi, rfl⟩ := List.mem_mapIdx.mp hs
    exact ((fieldName_closed hfields i).append (by decide)).append
      (hargs _ (List.getElem_mem hi))
  have hname : OpensBlock (enumName ++ "::" ++ variant ++ " \x7b ") :=
    ((henum.append (by decide)).append hvariant).opensInline
  exact .enclose hname (.commas hpairs) (by decide)

theorem methodText_closed {recv name : String} {args : List String} (hrecv : Closed recv)
    (hname : Closed name) (hargs : ∀ s ∈ args, Closed s) :
    Closed (methodText recv name args) := by
  refine .ite (hrecv.append (by decide)) (.ite (hrecv.append (by decide))
    (.ite (hrecv.append (by decide)) ?_))
  have hcall := ((hrecv.append (by decide : Closed ".")).append hname).append (args_closed hargs)
  rwa [← String.append_assoc, ← String.append_assoc] at hcall

theorem fieldText_closed {recv name : String} (hrecv : Closed recv) (hname : Closed name) :
    Closed (fieldText recv name) :=
  .ite (hrecv.append (by decide)) ((hrecv.append (by decide)).append hname)

theorem newArgs_closed (args : List Expr) {texts : List String} (h : ∀ s ∈ texts, Closed s) :
    ∀ s ∈ args.zipWith newArg texts, Closed s := by
  induction args generalizing texts with
  | nil => exact List.forall_mem_nil _
  | cons e args ih =>
    cases texts with
    | nil => exact List.forall_mem_nil _
    | cons s texts =>
      obtain ⟨hs, htexts⟩ := List.forall_mem_cons.mp h
      exact List.forall_mem_cons.mpr ⟨.ite (hs.append (by decide)) hs, ih htexts⟩

mutual

/-- **Expressions.** -/
theorem genExpr_closed {s : Scope} (hs : BracelessFields s.sealedClasses) :
    (e : Expr) → AllBraceless (exprTexts e) → Closed (genExpr s e)
  | .int value, h => by
    rw [genExpr]
    exact (allBraceless_word.mp h).1.closed
  | .float value, h => by
    rw [genExpr]
    exact (allBraceless_word.mp h).1.closed
  | .string value, h => by
    rw [genExpr]
    exact ((by decide : Closed "\"").append (allBraceless_literal.mp h).1.closed).append
      (by decide)
  | .bool value, _ => by
    rw [genExpr]
    exact .ite (by decide) (by decide)
  | .null, _ => by
    rw [genExpr]
    decide
  | .this, _ => by
    rw [genExpr]
    decide
  | .ident name, h => by
    have hname : Closed name := (allBraceless_word.mp h).1.closed
    rw [genExpr]
    exact .ite ((by decide : Closed "self.").append hname) hname
  | .binary op left right, h => by
    obtain ⟨hop, h⟩ := allBraceless_word.mp h
    obtain ⟨hleft, hright⟩ := allBraceless_append.mp h
    have hleft := genExpr_closed hs left hleft
    have hright := genExpr_closed hs right hright
    rw [genExpr]
    refine .ite ?_ ?_
    · exact ((((by decide : Closed "format!(\"\x7b\x7d\x7b\x7d\", ").append hleft).append
        (by decide)).append hright).append (by decide)
    · exact ((((((by decide : Closed "(").append hleft).append (by decide)).append
        hop.closed).append (by decide)).append hright).append (by decide)
  | .unary op operand, h => by
    obtain ⟨hop, h⟩ := allBraceless_word.mp h
    have hoperand := genExpr_closed hs operand h
    rw [genExpr]
    refine .ite ((by decide : Closed "&").append hoperand) ?_
    exact (((by decide : Closed "(").append hop.closed).append hoperand).append (by decide)
  | .call callee args, h => by
    obtain ⟨hcallee, hargs⟩ := allBraceless_append.mp h
    have htexts := genExprs_closed hs args hargs
    rw [genExpr]
    refine .ite ?_ (.ite (printlnText_closed hargs htexts) ?_)
    · exact ((by decide : Closed "(0..").append (headD_closed htexts)).append (by decide)
    · have hcall := (genExpr_closed hs callee hcallee).append (args_closed htexts)
      rwa [← String.append_assoc, ← String.append_assoc] at hcall
  | .method recv name args, h => by
    obtain ⟨hname, h⟩ := allBraceless_word.mp h
    obtain ⟨hrecv, hargs⟩ := allBraceless_append.mp h
    have htexts := genExprs_closed hs args hargs
    rw [genExpr]
    split
    · rename_i fieldNames hfound
      obtain ⟨enumName, henum, hfields⟩ := Option.bind_eq_some_iff.mp hfound
      obtain ⟨c, hc, v, hv, rfl⟩ := exists_of_sealedFields hfields
      rw [henum, Option.getD_some]
      exact variantText_closed (braceless_ident hrecv henum).closed hname.closed
        (hs c hc v hv) htexts
    · exact methodText_closed (genExpr_closed hs recv hrecv) hname.closed htexts
  | .field recv name, h => by
    obtain ⟨hname, hrecv⟩ := allBraceless_word.mp h
    rw [genExpr]
    exact fieldText_closed (genExpr_closed hs recv hrecv) hname.closed
  | .safeCall recv name args, h => by
    obtain ⟨hname, h⟩ := allBraceless_word.mp h
    obtain ⟨hrecv, hargs⟩ := allBraceless_append.mp h
    have hjoin : Closed (join ", " (genExprs s args)) :=
      .commas (genExprs_closed hs args hargs)
    rw [genExpr]
    exact ((((genExpr_closed hs recv hrecv).append (by decide)).append hname.closed).append
      (by decide)).append hjoin |>.append (by decide)
  | .elvis left right, h => by
    obtain ⟨hleft, hright⟩ := allBraceless_append.mp h
    rw [genExpr]
    exact (((genExpr_closed hs left hleft).append (by decide)).append
      (genExpr_closed hs right hright)).append (by decide)
  | .new typeName args, h => by
    obtain ⟨hname, hargs⟩ := allBraceless_word.mp h
    have hjoin : Closed (join ", " (args.zipWith newArg (genExprs s args))) :=
      .commas (newArgs_closed args (genExprs_closed hs args hargs))
    rw [genExpr]
    exact ((hname.closed.append (by decide)).append hjoin).append (by decide)
  | .cast expr typeName, h => by
    obtain ⟨hname, hexpr⟩ := allBraceless_word.mp h
    rw [genExpr]
    exact ((genExpr_closed hs expr hexpr).append (by decide)).append hname.closed

theorem genExprs_closed {s : Scope} (hs : BracelessFields s.sealedClasses) :
    (l : List Expr) → AllBraceless (exprsTexts l) → ∀ t ∈ genExprs s l, Closed t
  | [], _ => List.forall_mem_nil _
  | e :: l, h => List.forall_mem_cons.mpr
    ⟨genExpr_closed hs e (allBraceless_append.mp h).1,
      genExprs_closed hs l (allBraceless_append.mp h).2⟩

end

/-! ## Lines -/

theorem padding_closed (i : ℕ) : Closed (padding i) := by
  induction i with
  | zero => decide
  | succ i ih =>
    rw [padding, List.replicate_succ, String.join_cons, ← padding]
    exact (by decide : Closed "    ").append ih

theorem lineText_braces {line : String} (h : Braces k line k') (i : ℕ) :
    Braces k (lineText i line) k' := by
  rw [lineText]
  split_ifs with hempty
  · obtain rfl := String.isEmpty_iff.mp hempty
    exact h.append ((by decide : Closed "\n").braces k')
  · exact (((padding_closed i).braces k).append h).append ((by decide : Closed "\n").braces k')

/-- The braces of lines lead from depth `k` to depth `k'`, however far they are indented. -/
def Lays (k : ℕ) (lines : List Line) (k' : ℕ) : Prop := ∀ i, Braces k (layout i lines) k'

/-- Lines close just what they open. -/
def Level (lines : List Line) : Prop := ∀ k, Lays k lines k

variable {lines lines' : List Line}

namespace Lays

theorem line {j : ℕ} {line : String} (h : Braces k line k') : Lays k [(j, line)] k' := fun i ↦ by
  rw [layout_singleton]
  exact lineText_braces h (i + j)

theorem append (h : Lays k lines k') (h' : Lays k' lines' k'') : Lays k (lines ++ lines') k'' :=
  fun i ↦ by
    rw [layout_append]
    exact (h i).append (h' i)

theorem deeper (h : Lays k lines k') : Lays k (Agex.deeper lines) k' := fun i ↦ by
  rw [layout_deeper]
  exact h (i + 1)

theorem close (k : ℕ) : Lays (k + 1) [(0, "\x7d")] k := by
  have hclose : Braces 1 "\x7d" 0 := by decide
  have hlift := Nests.lift hclose k
  rw [Nat.zero_add, Nat.add_comm] at hlift
  exact line hlift

end Lays

namespace Level

theorem nil : Level [] := fun k _ ↦ Nests.nil k

theorem line {j : ℕ} {line : String} (h : Closed line) : Level [(j, line)] :=
  fun k ↦ .line (h.braces k)

theorem append (h : Level lines) (h' : Level lines') : Level (lines ++ lines') :=
  fun k ↦ (h k).append (h' k)

theorem cons {j : ℕ} {line : String} (h : Closed line) (h' : Level lines) :
    Level ((j, line) :: lines) := (Level.line h).append h'

theorem flatMap {α : Type} {f : α → List Line} {l : List α} (h : ∀ a ∈ l, Level (f a)) :
    Level (l.flatMap f) := by
  induction l with
  | nil => exact nil
  | cons a l ih =>
    obtain ⟨ha, hl⟩ := List.forall_mem_cons.mp h
    exact ha.append (ih hl)

theorem deeper (h : Level lines) : Level (Agex.deeper lines) := fun k ↦ (h k).deeper

theorem braced {head : String} (hhead : OpensBlock head) (h : Level lines) :
    Level (Agex.braced head lines) := fun k ↦
  (Lays.line (j := 0) (hhead.braces k)).append ((h.deeper (k + 1)).append (.close k))

end Level

/-! ## Statements -/

theorem genBinding_closed {s : Scope} {name : String} {ty : TypeNode} {init : Expr}
    (hname : Closed name) (hty : Closed (genType ty)) (hinit : Closed (genExpr s init)) :
    Closed (genBinding name ty init s) := by
  refine .ite ?_ ?_
  · exact ((hname.append (by decide)).append hinit).append (by decide)
  · exact ((((hname.append (by decide)).append hty).append (by decide)).append hinit).append
      (by decide)

theorem letLine_closed {s : Scope} (hs : BracelessFields s.sealedClasses) {keyword name : String}
    {ty : TypeNode} {init : Option Expr} (hkeyword : Closed keyword) (hname : Closed name)
    (hty : Closed (genType ty)) (hinit : AllBraceless (optTexts init)) :
    Closed (letLine s keyword name ty init) := by
  cases init with
  | none => exact (((hkeyword.append hname).append (by decide)).append hty).append (by decide)
  | some init =>
    exact hkeyword.append (genBinding_closed hname hty (genExpr_closed hs init hinit))

theorem constLine_closed {s : Scope} (hs : BracelessFields s.sealedClasses) {name : String}
    {ty : TypeNode} {init : Option Expr} (hname : Closed name) (hty : Closed (genType ty))
    (hinit : AllBraceless (optTexts init)) : Closed (constLine s name ty init) := by
  have hvalue : Closed ((init.map (genExpr s)).getD "") := by
    cases init with
    | none => exact (by decide : Closed "")
    | some init => exact genExpr_closed hs init hinit
  refine .ite ?_ ?_
  · exact ((((by decide : Closed "let ").append hname).append (by decide)).append hvalue).append
      (by decide)
  · exact ((((((by decide : Closed "const ").append hname).append (by decide)).append hty).append
      (by decide)).append hvalue).append (by decide)

theorem assignOp_closed (op : AssignOp) : Closed op.text := by cases op <;> decide

theorem rangeArgs_braceless {e : Expr} {args : List Expr} (h : AllBraceless (exprTexts e))
    (hargs : e.rangeArgs? = some args) : AllBraceless (exprsTexts args) := by
  cases e with
  | call callee args' =>
    rw [Expr.rangeArgs?] at hargs
    split_ifs at hargs
    obtain rfl := Option.some.inj hargs
    exact (allBraceless_append.mp h).2
  | _ => cases hargs

theorem forHead_opens {s : Scope} (hs : BracelessFields s.sealedClasses) {var : String}
    {iter : Expr} (hvar : Closed var) (hiter : AllBraceless (exprTexts iter)) :
    OpensBlock (forHead var iter s) := by
  have hfor : Closed ("for " ++ var) := (by decide : Closed "for ").append hvar
  rw [forHead]
  split
  · rename_i args hargs
    have htexts := genExprs_closed hs args (rangeArgs_braceless hiter hargs)
    exact ((hfor.append (by decide)).append (headD_closed htexts)).opens
  · exact ((hfor.append (by decide)).append (genExpr_closed hs iter hiter)).opens

theorem splitDot_braceless {pattern : String} (h : Braceless pattern) :
    Braceless (splitDot pattern).1 ∧ Braceless (splitDot pattern).2 := by
  have hleft : ∀ c ∈ pattern.toList.takeWhile (· ≠ '.'), c ∈ pattern.toList :=
    (List.takeWhile_sublist _).subset
  have hright : ∀ c ∈ (pattern.toList.dropWhile (· ≠ '.')).tail, c ∈ pattern.toList :=
    ((List.tail_sublist _).trans (List.dropWhile_sublist _)).subset
  simp only [splitDot, Braceless, String.toList_ofList]
  exact ⟨⟨fun hc ↦ h.1 (hleft _ hc), fun hc ↦ h.2 (hleft _ hc)⟩,
    fun hc ↦ h.1 (hright _ hc), fun hc ↦ h.2 (hright _ hc)⟩

theorem formatCase_closed {pattern : String} {bindings : List String} (h : Braceless pattern)
    (hbindings : ∀ b ∈ bindings, Braceless b) : Closed (formatCase pattern bindings) := by
  obtain ⟨hleft, hright⟩ := splitDot_braceless h
  have hparts : Closed ((splitDot pattern).1 ++ "::" ++ (splitDot pattern).2) :=
    (hleft.closed.append (by decide)).append hright.closed
  have hjoin : Closed (join ", " bindings) :=
    .commas fun b hb ↦ (hbindings b hb).closed
  have hopen : OpensBlock ((splitDot pattern).1 ++ "::" ++ (splitDot pattern).2 ++ " \x7b ") :=
    hparts.opensInline
  refine .ite (by decide) (.ite ?_ (.ite (.ite ?_ ?_) h.closed))
  · split
    · rename_i binding
      exact ((h.closed.append (by decide)).append
        (hbindings binding List.mem_cons_self).closed).append (by decide)
    · exact h.closed.append (by decide)
  · exact hparts.append (by decide)
  · exact .enclose hopen hjoin (by decide)

theorem defaultLines_level (cases : List MatchCase) : Level (defaultLines cases) := by
  rw [defaultLines]
  split_ifs
  · exact .nil
  · exact .line (by decide)

mutual

/-- **Statements.** -/
theorem stmtLines_level {s : Scope} (hs : BracelessFields s.sealedClasses) :
    (st : Stmt) → AllBraceless (stmtTexts st) → Level (stmtLines s st)
  | .letStmt name ty init, h => by
    obtain ⟨hname, h⟩ := allBraceless_word.mp h
    obtain ⟨hty, hinit⟩ := allBraceless_append.mp h
    rw [stmtLines]
    exact .line (letLine_closed hs (by decide) hname.closed (genType_closed ty hty) hinit)
  | .constStmt name ty init, h => by
    obtain ⟨hname, h⟩ := allBraceless_word.mp h
    obtain ⟨hty, hinit⟩ := allBraceless_append.mp h
    rw [stmtLines]
    exact .line (constLine_closed hs hname.closed (genType_closed ty hty) hinit)
  | .varStmt name ty init, h => by
    obtain ⟨hname, h⟩ := allBraceless_word.mp h
    obtain ⟨hty, hinit⟩ := allBraceless_append.mp h
    rw [stmtLines]
    exact .line (letLine_closed hs (by decide) hname.closed (genType_closed ty hty) hinit)
  | .assignStmt target op value, h => by
    obtain ⟨htarget, hvalue⟩ := allBraceless_append.mp h
    rw [stmtLines, assignLine]
    exact .line ((((((genExpr_closed hs target htarget).append (by decide)).append
      (assignOp_closed op)).append (by decide)).append
      (genExpr_closed hs value hvalue)).append (by decide))
  | .returnStmt none, _ => by
    rw [stmtLines]
    exact .line (by decide : Closed "return;")
  | .returnStmt (some value), h => by
    rw [stmtLines]
    exact .line (((by decide : Closed "return ").append (genExpr_closed hs value h)).append
      (by decide))
  | .ifStmt cond thenBody els, h => by
    obtain ⟨hcond, h⟩ := allBraceless_append.mp h
    obtain ⟨hthen, hels⟩ := allBraceless_append.mp h
    have hhead : OpensBlock ("if " ++ genExpr s cond ++ " \x7b") :=
      ((by decide : Closed "if ").append (genExpr_closed hs cond hcond)).opens
    rw [stmtLines]
    intro k
    -- the other branch begins and ends within the braces
    have hrest := (elseLines_lays hs els hels k).append (.close k)
    exact (Lays.line (j := 0) (hhead.braces k)).append
      (((stmtsLines_level hs thenBody hthen).deeper (k + 1)).append hrest)
  | .forStmt var iter body, h => by
    obtain ⟨hvar, h⟩ := allBraceless_word.mp h
    obtain ⟨hiter, hbody⟩ := allBraceless_append.mp h
    rw [stmtLines]
    exact .braced (forHead_opens hs hvar.closed hiter) (stmtsLines_level hs body hbody)
  | .matchStmt expr cases, h => by
    obtain ⟨hexpr, hcases⟩ := allBraceless_append.mp h
    have hhead : OpensBlock ("match " ++ genExpr s expr ++ " \x7b") :=
      ((by decide : Closed "match ").append (genExpr_closed hs expr hexpr)).opens
    rw [stmtLines]
    exact .braced hhead ((casesLines_level hs cases hcases).append (defaultLines_level cases))
  | .printStmt args, h => by
    rw [stmtLines]
    exact .line ((printlnText_closed h (genExprs_closed hs args h)).append (by decide))
  | .unsafeStmt body, h => by
    rw [stmtLines]
    exact .braced (by decide) (stmtsLines_level hs body h)
  | .exprStmt expr, h => by
    rw [stmtLines]
    exact .line ((genExpr_closed hs expr h).append (by decide))

theorem stmtsLines_level {s : Scope} (hs : BracelessFields s.sealedClasses) :
    (l : List Stmt) → AllBraceless (stmtsTexts l) → Level (stmtsLines s l)
  | [], _ => .nil
  | st :: l, h => (stmtLines_level hs st (allBraceless_append.mp h).1).append
    (stmtsLines_level hs l (allBraceless_append.mp h).2)

/-- The other branch of an `if` closes the first one. -/
theorem elseLines_lays {s : Scope} (hs : BracelessFields s.sealedClasses) :
    (els : Option (List Stmt)) → AllBraceless (elseTexts els) →
      ∀ k, Lays (k + 1) (elseLines s els) (k + 1)
  | none, _ => fun k ↦ Level.nil (k + 1)
  | some els, h => fun k ↦ by
    have helse : Braces 1 "\x7d else \x7b" 1 := by decide
    have hlift := Nests.lift helse k
    rw [Nat.add_comm] at hlift
    exact (Lays.line (j := 0) hlift).append ((stmtsLines_level hs els h).deeper (k + 1))

theorem casesLines_level {s : Scope} (hs : BracelessFields s.sealedClasses) :
    (cases : List MatchCase) → AllBraceless (casesTexts cases) → Level (casesLines s cases)
  | [], _ => .nil
  | c :: l, h => (caseLines_level hs c (allBraceless_append.mp h).1).append
    (casesLines_level hs l (allBraceless_append.mp h).2)

theorem caseLines_level {s : Scope} (hs : BracelessFields s.sealedClasses) :
    (c : MatchCase) → AllBraceless (caseTexts c) → Level (caseLines s c)
  | .mk pattern bindings body, h => by
    obtain ⟨hpattern, h⟩ := allBraceless_word.mp h
    obtain ⟨hbindings, hbody⟩ := allBraceless_append.mp h
    have hcase : OpensBlock (formatCase pattern bindings ++ " => \x7b") :=
      Braces.append (formatCase_closed hpattern (allBraceless_words.mp hbindings))
        (by decide : OpensBlock " => \x7b")
    exact .braced hcase (stmtsLines_level hs body hbody)

end

/-! ## Functions -/

theorem genTyped_closed {p : Param} (h : AllBraceless (paramTexts p)) : Closed (genTyped p) := by
  obtain ⟨hname, h⟩ := allBraceless_word.mp h
  exact (hname.closed.append (by decide)).append
    (genType_closed p.ty (allBraceless_append.mp h).1)

section Params

variable {params : List Param} (h : ∀ p ∈ params, AllBraceless (paramTexts p))

include h

theorem genTypedParams_closed : Closed (genTypedParams params) :=
  .commas (List.forall_mem_map.mpr fun p hp ↦ genTyped_closed (h p hp))

theorem genParams_closed (isExtension : Bool) : Closed (genParams params isExtension) := by
  have hself : ∀ s ∈ if isExtension then ["&self"] else [], Closed s := by
    cases isExtension <;> decide
  refine .commas (List.forall_mem_append.mpr
    ⟨hself, List.forall_mem_map.mpr fun p hp ↦ ?_⟩)
  exact (Closed.ite (by decide) (by decide)).append (genTyped_closed (h p hp))

theorem paramNames_closed {op cl : String} (hop : OpensBlock op) (hcl : Braces 1 cl 0) :
    Closed (join ", " (params.map fun p ↦ op ++ p.name ++ cl)) :=
  .commas (List.forall_mem_map.mpr fun p hp ↦
    .enclose hop (allBraceless_word.mp (h p hp)).1.closed hcl)

theorem names_closed : Closed (join ", " (params.map Param.name)) :=
  .commas (List.forall_mem_map.mpr fun p hp ↦ (allBraceless_word.mp (h p hp)).1.closed)

end Params

theorem genReturn_closed {t : TypeNode} (h : AllBraceless (typeTexts t)) :
    Closed (genReturn t) :=
  .ite (by decide) ((by decide : Closed " -> ").append (genType_closed t h))

theorem genSignature_closed {name : String} {params : List Param} {returnType : TypeNode}
    (hname : Braceless name) (h : AllBraceless (signatureTexts params returnType)) :
    Closed (genSignature name params returnType) := by
  obtain ⟨hparams, hreturn⟩ := allBraceless_append.mp h
  exact (((((by decide : Closed "fn ").append hname.closed).append (by decide)).append
    (genTypedParams_closed (allBraceless_flatMap.mp hparams))).append (by decide)).append
    (genReturn_closed hreturn)

/-- There are no braces in the texts of a function. -/
structure BracelessFn (f : FnDecl) : Prop where
  name : Braceless f.name
  signature : AllBraceless (signatureTexts f.params f.returnType)
  body : AllBraceless (elseTexts f.body)
  exprBody : AllBraceless (optTexts f.exprBody)
  receiver : ∀ recv ∈ f.receiver, Braceless recv

theorem bracelessFn {f : FnDecl} (h : AllBraceless (fnTexts f)) : BracelessFn f := by
  obtain ⟨hname, h⟩ := allBraceless_word.mp h
  obtain ⟨h, hreceiver⟩ := allBraceless_append.mp h
  obtain ⟨hsignature, h⟩ := allBraceless_append.mp h
  obtain ⟨hbody, hexpr⟩ := allBraceless_append.mp h
  exact ⟨hname, hsignature, hbody, hexpr, fun recv hrecv ↦
    allBraceless_words.mp hreceiver recv (Option.mem_toList.mpr hrecv)⟩

namespace BracelessFn

variable {f : FnDecl} (h : BracelessFn f)

include h

theorem params : ∀ p ∈ f.params, AllBraceless (paramTexts p) :=
  allBraceless_flatMap.mp (allBraceless_append.mp h.signature).1

theorem returnType : Closed (genReturn f.returnType) :=
  genReturn_closed (allBraceless_append.mp h.signature).2

theorem withReceiver {receiver : String} (hreceiver : Closed receiver) :
    Closed (withReceiver receiver f) :=
  .ite hreceiver ((hreceiver.append (by decide)).append (genParams_closed h.params false))

theorem methodHead {receiver : String} (hreceiver : Closed receiver) :
    OpensBlock (methodHead f receiver) :=
  ((((((Closed.ite (by decide) (by decide)).append (by decide)).append h.name.closed).append
    (by decide)).append (h.withReceiver hreceiver)).append (by decide)).append h.returnType |>.opens

theorem fnHead : OpensBlock (fnHead f) :=
  ((((((Closed.ite (by decide) (by decide)).append (by decide)).append h.name.closed).append
    (by decide)).append (genParams_closed h.params false)).append (by decide)).append
    h.returnType |>.opens

theorem extensionHead : OpensBlock (extensionHead f) := by
  have hself : Closed
      (if f.params.isEmpty then "self: Self" else Agex.withReceiver "self: &Self" f) :=
    .ite (by decide) (h.withReceiver (by decide))
  exact (((((by decide : Closed "pub fn ").append h.name.closed).append (by decide)).append
    hself).append (by decide)).append h.returnType |>.opens

end BracelessFn

section Declarations

variable {L : List SealedClass}

theorem bodyLines_level {s : Scope} (hs : BracelessFields s.sealedClasses) {f : FnDecl}
    (h : BracelessFn f) : Level (bodyLines s f) := by
  have hexpr : Level (exprBodyLines s f.exprBody) := by
    have hbody := h.exprBody
    cases hf : f.exprBody with
    | none => exact .nil
    | some e =>
      rw [hf] at hbody
      exact .line (genExpr_closed hs e hbody)
  have hstmts : Level (stmtBodyLines s f.body) := by
    have hbody := h.body
    cases hf : f.body with
    | none => exact .nil
    | some body =>
      rw [hf] at hbody
      exact stmtsLines_level hs body hbody
  exact hexpr.append hstmts

/-- **Functions.** -/
theorem fnLines_level (hL : BracelessFields L) {f : FnDecl} (h : BracelessFn f) (isMethod : Bool)
    (fields : List String) : Level (fnLines L f isMethod fields) := by
  have hbody := bodyLines_level (s := ⟨bodyFields f isMethod fields, L⟩) hL h
  rw [fnLines]
  cases hrecv : f.receiver with
  | some recv =>
    have himpl : OpensBlock ("impl " ++ recv ++ " \x7b") :=
      ((by decide : Closed "impl ").append (h.receiver recv hrecv).closed).opens
    exact .braced himpl (.braced h.extensionHead hbody)
  | none =>
    refine .braced ?_ hbody
    split_ifs
    · exact h.methodHead (.ite (by decide) (by decide))
    · exact h.fnHead

/-! ## Declarations -/

theorem externLines_level {e : ExternDecl} (h : AllBraceless (declTexts (.externDecl e))) :
    Level (externLines e) := by
  obtain ⟨habi, h⟩ := allBraceless_literal.mp h
  have hhead : OpensBlock ("extern \"" ++ e.abi ++ "\" \x7b") :=
    Braces.append ((by decide : Closed "extern \"").append habi.closed)
      (by decide : OpensBlock "\" \x7b")
  refine .braced hhead (.flatMap fun f hf ↦ .line ?_)
  obtain ⟨hname, hsignature⟩ := allBraceless_word.mp (allBraceless_flatMap.mp h f hf)
  exact (genSignature_closed hname hsignature).append (by decide)

theorem displayLines_level {name : String} {body : List Line} (hname : Braceless name)
    (hbody : Level body) : Level (displayLines name body) := by
  have hhead : OpensBlock ("impl std::fmt::Display for " ++ name ++ " \x7b") :=
    ((by decide : Closed "impl std::fmt::Display for ").append hname.closed).opens
  exact .braced hhead (.braced (by decide) hbody)

theorem braceless_variant {c : ClassDecl} (h : AllBraceless (classTexts c)) :
    match c with
    | .mk name _ _ params _ _ _ =>
      Braceless name ∧ ∀ p ∈ params, AllBraceless (paramTexts p) := by
  obtain ⟨name, isData, isSealed, params, bases, members, subclasses⟩ := c
  obtain ⟨hname, h⟩ := allBraceless_word.mp h
  obtain ⟨h, -⟩ := allBraceless_append.mp h
  obtain ⟨h, -⟩ := allBraceless_append.mp h
  exact ⟨hname, allBraceless_flatMap.mp (allBraceless_append.mp h).1⟩

theorem variantLine_closed {c : ClassDecl} (h : AllBraceless (classTexts c)) :
    Closed (variantLine c) := by
  obtain ⟨name, isData, isSealed, params, bases, members, subclasses⟩ := c
  obtain ⟨hname, hparams⟩ := braceless_variant h
  exact .enclose hname.closed.opensInline (genTypedParams_closed hparams) (by decide)

theorem variantDisplayLine_closed {className : String} (hclass : Braceless className)
    {c : ClassDecl} (h : AllBraceless (classTexts c)) :
    Closed (variantDisplayLine className c) := by
  obtain ⟨name, isData, isSealed, params, bases, members, subclasses⟩ := c
  obtain ⟨hname, hparams⟩ := braceless_variant h
  have hopen : OpensBlock (className ++ "::" ++ name ++ " \x7b ") :=
    ((hclass.closed.append (by decide)).append hname.closed).opensInline
  have hpattern : Braces 0 (className ++ "::" ++ name ++ " \x7b " ++ join ", "
      (params.map Param.name) ++ " \x7d => write!(f, \"") 0 :=
    (Braces.append hopen ((names_closed hparams).braces 1)).append (by decide)
  exact ((((Closed.append hpattern hname.closed).append (by decide)).append
    (paramNames_closed hparams (by decide) (by decide))).append (by decide))

theorem sealedLines_level {name : String} {subclasses : List ClassDecl} (hname : Braceless name)
    (h : ∀ c ∈ subclasses, AllBraceless (classTexts c)) : Level (sealedLines name subclasses) := by
  have henum : OpensBlock ("pub enum " ++ name ++ " \x7b") :=
    ((by decide : Closed "pub enum ").append hname.closed).opens
  have hvariants : Level (subclasses.flatMap fun c ↦ [(0, variantLine c)]) :=
    .flatMap fun c hc ↦ .line (variantLine_closed (h c hc))
  have hcases : Level (subclasses.flatMap fun c ↦ [(0, variantDisplayLine name c)]) :=
    .flatMap fun c hc ↦ .line (variantDisplayLine_closed hname (h c hc))
  exact (Level.braced henum hvariants).append
    (displayLines_level hname (.braced (by decide) hcases))

theorem structLines_level {name : String} {params : List Param} {rest : List Line}
    (hname : Braceless name) (hparams : ∀ p ∈ params, AllBraceless (paramTexts p))
    (hrest : Level rest) : Level (structLines name params rest) := by
  have hstruct : OpensBlock ("pub struct " ++ name ++ " \x7b") :=
    ((by decide : Closed "pub struct ").append hname.closed).opens
  have himpl : OpensBlock ("impl " ++ name ++ " \x7b") :=
    ((by decide : Closed "impl ").append hname.closed).opens
  have hnew : OpensBlock ("pub fn new(" ++ genTypedParams params ++ ") -> Self \x7b") :=
    Braces.append ((by decide : Closed "pub fn new(").append (genTypedParams_closed hparams))
      (by decide : OpensBlock ") -> Self \x7b")
  have hself : Closed ("Self \x7b " ++ join ", " (params.map Param.name) ++ " \x7d") :=
    .enclose (by decide) (names_closed hparams) (by decide)
  have hfields : Level (params.flatMap fun p ↦ [(0, "pub " ++ genTyped p ++ ",")]) :=
    .flatMap fun p hp ↦ .line (((by decide : Closed "pub ").append
      (genTyped_closed (hparams p hp))).append (by decide))
  exact (Level.braced hstruct hfields).append
    (.braced himpl ((Level.braced hnew (.line hself)).append hrest))

theorem componentLine_closed {p : Param × ℕ} (h : AllBraceless (paramTexts p.1)) :
    Closed (componentLine p) := by
  obtain ⟨hname, h⟩ := allBraceless_word.mp h
  have hnumber : Closed (toString (p.2 + 1)) :=
    Braceless.closed ⟨notMem_toString (by decide) _, notMem_toString (by decide) _⟩
  have hhead : Closed ("pub fn component_" ++ toString (p.2 + 1) ++ "(&self) -> &"
      ++ genType p.1.ty) :=
    (((by decide : Closed "pub fn component_").append hnumber).append (by decide)).append
      (genType_closed p.1.ty (allBraceless_append.mp h).1)
  exact .enclose (Braces.append hhead (by decide : OpensBlock " \x7b &self.")) hname.closed
    (by decide)

theorem dataDisplayLine_closed {name : String} {params : List Param} (hname : Braceless name)
    (hparams : ∀ p ∈ params, AllBraceless (paramTexts p)) :
    Closed (dataDisplayLine name params) :=
  ((((by decide : Closed "write!(f, \"").append hname.closed).append (by decide)).append
    (paramNames_closed hparams (by decide) (by decide))).append (by decide)

theorem classLines_level (hL : BracelessFields L) {c : ClassDecl}
    (h : AllBraceless (classTexts c)) : Level (classLines L c) := by
  obtain ⟨name, isData, isSealed, params, bases, members, subclasses⟩ := c
  obtain ⟨hname, h⟩ := allBraceless_word.mp h
  obtain ⟨h, hsubclasses⟩ := allBraceless_append.mp h
  obtain ⟨h, hmembers⟩ := allBraceless_append.mp h
  rw [classesTexts_eq] at hsubclasses
  have hparams := allBraceless_flatMap.mp (allBraceless_append.mp h).1
  have hfns : Level (memberLines L params members) := .flatMap fun m hm ↦
    fnLines_level hL (bracelessFn (allBraceless_flatMap.mp hmembers m hm)) true _
  have hcomponents : Level (params.zipIdx.flatMap fun p ↦ [(0, componentLine p)]) :=
    .flatMap fun p hp ↦
      .line (componentLine_closed (hparams p.1 (List.fst_mem_of_mem_zipIdx hp)))
  rw [classLines]
  split_ifs
  · exact sealedLines_level hname (allBraceless_flatMap.mp hsubclasses)
  · exact .cons (by decide) ((structLines_level hname hparams (hcomponents.append hfns)).append
      (displayLines_level hname (.line (dataDisplayLine_closed hname hparams))))
  · exact structLines_level hname hparams hfns

theorem interfaceLines_level (hL : BracelessFields L) {i : InterfaceDecl}
    (h : AllBraceless (declTexts (.interface i))) : Level (interfaceLines L i) := by
  obtain ⟨hname, hmethods⟩ := allBraceless_word.mp h
  have hhead : OpensBlock ("pub trait " ++ i.name ++ " \x7b") :=
    ((by decide : Closed "pub trait ").append hname.closed).opens
  refine .braced hhead (.flatMap fun m hm ↦ ?_)
  have hfn := bracelessFn (allBraceless_flatMap.mp hmethods m hm)
  have hsignature := genSignature_closed hfn.name hfn.signature
  rw [interfaceMethodLines]
  split_ifs
  · exact .braced hsignature.opens (bodyLines_level hL hfn)
  · exact .line (hsignature.append (by decide))

theorem objectLines_level (hL : BracelessFields L) {o : ObjectDecl}
    (h : AllBraceless (declTexts (.object o))) : Level (objectLines L o) := by
  obtain ⟨hname, hmembers⟩ := allBraceless_word.mp h
  have hstruct : Closed ("pub struct " ++ o.name ++ ";") :=
    ((by decide : Closed "pub struct ").append hname.closed).append (by decide)
  have himpl : OpensBlock ("impl " ++ o.name ++ " \x7b") :=
    ((by decide : Closed "impl ").append hname.closed).opens
  have hinstance : OpensBlock ("pub fn instance() -> &'static " ++ o.name ++ " \x7b") :=
    ((by decide : Closed "pub fn instance() -> &'static ").append hname.closed).opens
  have hstatic : Closed ("static INSTANCE: OnceLock<" ++ o.name ++ "> = OnceLock::new();") :=
    ((by decide : Closed "static INSTANCE: OnceLock<").append hname.closed).append (by decide)
  have hget : Closed ("INSTANCE.get_or_init(|| " ++ o.name ++ ")") :=
    ((by decide : Closed "INSTANCE.get_or_init(|| ").append hname.closed).append (by decide)
  refine .cons hstruct (.braced himpl ((Level.braced hinstance
    (.cons (by decide) (.cons hstatic (.line hget)))).append (.flatMap fun m hm ↦ ?_)))
  have hfn := bracelessFn (allBraceless_flatMap.mp hmembers m hm)
  exact .braced (((by decide : Closed "pub ").append
    (genSignature_closed hfn.name hfn.signature)).opens) (bodyLines_level hL hfn)

theorem driverLines_level (hL : BracelessFields L) {v : DriverDecl}
    (h : AllBraceless (declTexts (.driver v))) : Level (driverLines L v) := by
  obtain ⟨hname, h⟩ := allBraceless_word.mp h
  obtain ⟨himplements, hmembers⟩ := allBraceless_word.mp h
  have hstruct : Closed ("pub struct " ++ v.name ++ ";") :=
    ((by decide : Closed "pub struct ").append hname.closed).append (by decide)
  have himpl : OpensBlock ("impl " ++ v.implements ++ " for " ++ v.name ++ " \x7b") :=
    ((((by decide : Closed "impl ").append himplements.closed).append (by decide)).append
      hname.closed).opens
  refine .cons hstruct (.braced himpl (.flatMap fun m hm ↦ ?_))
  have hfn := bracelessFn (allBraceless_flatMap.mp hmembers m hm)
  refine .braced (genSignature_closed hfn.name hfn.signature).opens
    ((bodyLines_level hL hfn).append ?_)
  split_ifs
  · exact .nil
  · exact .line (by decide)

theorem importLines_level {i : ImportDecl} (h : AllBraceless (declTexts (.importDecl i))) :
    Level (importLines i) := by
  have hmodule : Closed i.module := (allBraceless_word.mp h).1.closed
  refine .cons ((by decide : Closed "// import ").append hmodule) ?_
  split_ifs
  · exact .line (((by decide : Closed "mod ").append hmodule).append (by decide))
  · exact .nil

/-- **Declarations.** -/
theorem declLines_level (hL : BracelessFields L) {d : Decl} (h : AllBraceless (declTexts d)) :
    Level (declLines L d) := by
  cases d with
  | importDecl i => exact importLines_level h
  | externDecl e => exact externLines_level h
  | fn f => exact fnLines_level hL (bracelessFn h) false []
  | classDecl c => exact classLines_level hL h
  | interface i => exact interfaceLines_level hL h
  | object o => exact objectLines_level hL h
  | driver v => exact driverLines_level hL h
  | stmt s => exact .nil

/-! ## Programs -/

theorem registered_braceless {d : Decl} (h : AllBraceless (declTexts d)) :
    BracelessFields (registered d) := by
  cases d with
  | classDecl c =>
    obtain ⟨name, isData, isSealed, params, bases, members, subclasses⟩ := c
    obtain ⟨-, h⟩ := allBraceless_word.mp h
    obtain ⟨-, hsubclasses⟩ := allBraceless_append.mp h
    rw [classesTexts_eq] at hsubclasses
    rw [registered]
    split_ifs
    · refine List.forall_mem_singleton.mpr (List.forall_mem_map.mpr fun c hc ↦ ?_)
      have hvariant := allBraceless_flatMap.mp hsubclasses c hc
      obtain ⟨name, isData, isSealed, params, bases, members, subclasses⟩ := c
      obtain ⟨-, hparams⟩ := braceless_variant hvariant
      exact List.forall_mem_map.mpr fun p hp ↦ (allBraceless_word.mp (hparams p hp)).1
    · exact List.forall_mem_nil _
  | _ => exact List.forall_mem_nil _

theorem itemLines_level {l : List Decl} (hL : BracelessFields L)
    (h : ∀ d ∈ l, AllBraceless (declTexts d)) : Level (itemLines L l) := by
  induction l generalizing L with
  | nil => exact .nil
  | cons d l ih =>
    obtain ⟨hd, hl⟩ := List.forall_mem_cons.mp h
    have hL' : BracelessFields (L ++ registered d) :=
      List.forall_mem_append.mpr ⟨hL, registered_braceless hd⟩
    exact ((declLines_level hL hd).append (.line (by decide))).append (ih hL' hl)

theorem mainLines_level (hL : BracelessFields L) {stmts : List Stmt}
    (h : ∀ st ∈ stmts, AllBraceless (stmtTexts st)) : Level (mainLines L stmts) := by
  have hstmts : AllBraceless (stmtsTexts stmts) := by
    rw [stmtsTexts_eq]
    exact allBraceless_flatMap.mpr h
  rw [mainLines]
  split_ifs
  · exact .nil
  · exact .braced (by decide) (stmtsLines_level (s := ⟨[], L⟩) hL stmts hstmts)

end Declarations

/-- **The output** of the generator. -/
theorem programLines_level {prog : Program} (h : AllBraceless (prog.decls.flatMap declTexts)) :
    Level (programLines prog) := by
  have hdecl := allBraceless_flatMap.mp h
  have hitems : ∀ d ∈ prog.items, AllBraceless (declTexts d) :=
    fun d hd ↦ hdecl d (List.mem_of_mem_filter hd)
  have hstmts : ∀ st ∈ prog.topStmts, AllBraceless (stmtTexts st) := by
    intro st hst
    obtain ⟨d, hd, hdst⟩ := List.mem_filterMap.mp hst
    cases d with
    | stmt st' =>
      obtain rfl := Option.some.inj hdst
      exact hdecl _ hd
    | _ => cases hdst
  have hheader : Level headerLines :=
    .cons (by decide) (.cons (by decide) (.cons (by decide) (.cons (by decide)
      (.line (by decide)))))
  have hfields : BracelessFields (prog.items.flatMap registered) :=
    List.forall_mem_flatMap.mpr fun d hd ↦ registered_braceless (hitems d hd)
  exact (hheader.append (itemLines_level (List.forall_mem_nil _) hitems)).append
    (mainLines_level hfields hstmts)

/-- The generator is at the left margin behind every declaration. -/
theorem indent_of_items {l : List Decl} {d : Decl} : ∃ g, (do
    genHeader
    each genItem l
    genDecl d : Gen Unit) Generator.new = some ((), g) ∧ g.indent = 0 := by
  have hrun := (genHeader_prints (s := ⟨[], []⟩) 0).seq
    ((items_writes (L := []) l).seq (genDecl_writes d 0))
  exact ⟨_, hrun "" [], rfl⟩

/-- No prefix of a text has more closing braces than opening ones, and the text as a whole has as
many of the ones as of the others. -/
def BraceBalanced (s : String) : Prop :=
  (∀ p, p <+: s.toList → p.count '\x7d' ≤ p.count '\x7b') ∧
    s.toList.count '\x7b' = s.toList.count '\x7d'

theorem Closed.braceBalanced (h : Closed s) : BraceBalanced s := by
  have hne : '\x7b' ≠ '\x7d' := by decide
  refine ⟨fun p hp ↦ ?_, ?_⟩
  · have hle := Nests.count_le hne h hp
    rwa [Nat.zero_add] at hle
  · have heq := Nests.count_eq hne h
    rwa [Nat.zero_add, Nat.zero_add] at heq

theorem allBraceless_of_spelled {l : List Text} (h : AllSpelled l)
    (hliterals : ∀ s ∈ l.filterMap Text.literal?, Braceless s) : AllBraceless l := by
  intro t ht
  cases t with
  | literal value => exact hliterals value (List.mem_filterMap.mpr ⟨_, ht, rfl⟩)
  | word value => exact h _ ht

/-- **Generated Rust is balanced**, if there are no braces in the literals of the program. To take
one from an indentation of zero would be a failure of the generator. -/
theorem generate_braces {fuel : ℕ} {src : String} {prog : Program}
    (hprog : parse fuel src = .ok prog) (hliterals : ∀ s ∈ prog.literals, Braceless s) :
    (∃ g, genProgram prog Generator.new = some ((), g) ∧
      generate prog = some ⟨g.out, g.warnings⟩ ∧ BraceBalanced g.out ∧ g.indent = 0) ∧
    ∀ l d, l ++ [d] <+: prog.items → ∃ g, (do
      genHeader
      each genItem l
      genDecl d : Gen Unit) Generator.new = some ((), g) ∧ g.indent = 0 := by
  have htexts := allBraceless_of_spelled (allSpelled_of_parse hprog) hliterals
  have hclosed : Closed (layout 0 (programLines prog)) := programLines_level htexts 0 0
  exact ⟨⟨_, genProgram_eq_layout prog, generate_eq_layout prog, hclosed.braceBalanced, rfl⟩,
    fun l d _ ↦ indent_of_items⟩

/-- A class with a method, a string literal and both branches of an `if`. -/
def bothBranches : String :=
  "class C(a: int) \x7b fn f() \x7b if a > 1 \x7b print(\"x\") \x7d else \x7b g(a) \x7d \x7d \x7d"

theorem generate_braces_bothBranches : ∃ prog g, parse 40 bothBranches = .ok prog ∧
    generate prog = some g ∧ BraceBalanced g.rust := by
  have hcheck : parsedAs (fun prog ↦ prog.literals = ["x"]) (parse 40 bothBranches) = true := by
    decide +kernel
  obtain ⟨prog, hprog, hliterals⟩ := exists_of_parsedAs hcheck
  have hbraceless : ∀ s ∈ prog.literals, Braceless s := by
    rw [of_decide_eq_true hliterals]
    decide
  obtain ⟨⟨g, -, hg, hbalanced, -⟩, -⟩ := generate_braces hprog hbraceless
  exact ⟨prog, _, hprog, hg, hbalanced⟩

end Agex

end Zeroxos
