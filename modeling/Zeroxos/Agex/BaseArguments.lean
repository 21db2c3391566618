import Zeroxos.Agex.ParserLocal

/-!
# The arguments of a base class

A base class may be given arguments, which the parser has no use for: `skip_optional_parens` moves
on to the first closing parenthesis.

## The condition

That is the matching one when there is no parenthesis between the two (`base_arguments_iff`). A
class is then what it would be without the arguments, except that a second pair of parentheses is
not skipped.

## Two runs

What the parser does with the rest of a class is compared with what it does with the class without
the arguments: up to the arguments it has seen the same tokens, and behind them it does.
-/

namespace Zeroxos

namespace Agex

open Parse

variable {α β : Type} {fuel : ℕ} {c c' d d' : Cursor Token} {t o r : Token}
  {content post l l' : List Token} {ty : TokenType} {p q : P α} {a : α} {b : β}

/-! ## Parentheses -/

/-- Every parenthesis has its match. -/
inductive Balanced : List Token → Prop
  | nil : Balanced []
  | token {t : Token} {ts : List Token} (hopen : t.ty ≠ .lParen) (hclose : t.ty ≠ .rParen)
      (h : Balanced ts) : Balanced (t :: ts)
  | parens {o r : Token} {ts ts' : List Token} (ho : o.ty = .lParen) (hr : r.ty = .rParen)
      (h : Balanced ts) (h' : Balanced ts') : Balanced (o :: ts ++ r :: ts')

/-- There is no parenthesis. -/
def Flat (ts : List Token) : Prop := ∀ t ∈ ts, t.ty ≠ .lParen ∧ t.ty ≠ .rParen

theorem flat_cons (hopen : t.ty ≠ .lParen) (hclose : t.ty ≠ .rParen) (h : Flat l) : Flat (t :: l) :=
  List.forall_mem_cons.mpr ⟨⟨hopen, hclose⟩, h⟩

/-- Where there are parentheses, there is a first one that closes. -/
theorem Balanced.flat_or (h : Balanced content) : Flat content ∨
    ∃ before r after, content = before ++ r :: after ∧ r.ty = .rParen ∧
      ∀ t ∈ before, t.ty ≠ .rParen := by
  induction h with
  | nil => exact .inl fun _ h ↦ nomatch h
  | @token t ts hopen hclose _ ih =>
    rcases ih with hflat | ⟨before, r, after, rfl, hr, hbefore⟩
    · exact .inl (flat_cons hopen hclose hflat)
    · exact .inr ⟨t :: before, r, after, rfl, hr, List.forall_mem_cons.mpr ⟨hclose, hbefore⟩⟩
  | @parens o r ts ts' ho hr _ _ ih _ =>
    have ho' : o.ty ≠ .rParen := by
      rw [ho]
      decide
    rcases ih with hflat | ⟨before, r', after, rfl, hr', hbefore⟩
    · have hts : ∀ t ∈ ts, t.ty ≠ .rParen := fun t ht ↦ (hflat t ht).2
      exact .inr ⟨o :: ts, r, ts', rfl, hr, List.forall_mem_cons.mpr ⟨ho', hts⟩⟩
    · refine .inr ⟨o :: before, r', after ++ r :: ts', ?_, hr',
        List.forall_mem_cons.mpr ⟨ho', hbefore⟩⟩
      simp only [List.cons_append, List.append_assoc]

/-! ## Skipping -/

theorem isAt_reads {f : Bool → P β} (h : Reads id (f (decide (t.ty = ty))) (t :: l) b l') :
    Reads id (isAt ty >>= f) (t :: l) b l' := by
  rw [isAt, bind_assoc]
  refine Reads.current_bind fun t' ht ↦ ?_
  obtain rfl : t' = t := ht
  exact h

theorem ifAt_reads_same (hty : t.ty = ty) (h : Reads id p (t :: l) a l') :
    Reads id (ifAt ty p q) (t :: l) a l' :=
  isAt_reads (by rwa [decide_eq_true hty])

theorem ifAt_reads_other (hty : t.ty ≠ ty) (h : Reads id q (t :: l) a l') :
    Reads id (ifAt ty p q) (t :: l) a l' :=
  isAt_reads (by rwa [decide_eq_false hty])

theorem eat_reads (hty : t.ty = ty) : Reads id (eat ty) (t :: l) t l := by
  refine ifAt_reads_same hty (Reads.current_bind fun t' ht ↦ ?_)
  obtain rfl : t' = t := ht
  exact Reads.advance.bind (.pure t' l)

theorem attempt_reads (h : Reads id p l a l') : Reads id (attempt p) l (some a) l' := by
  intro c hc
  obtain ⟨c', hrun, hc'⟩ := h c hc
  refine ⟨c', ?_, hc'⟩
  rw [attempt, hrun]

theorem skipLoop_reads (hr : r.ty = .rParen) (hbefore : ∀ t ∈ l, t.ty ≠ .rParen)
    (heof : ∀ t ∈ l, t.ty ≠ .eof) {fuel : ℕ} (hfuel : l.length < fuel) :
    Reads id (whileLoop (ifAt .rParen (return false) (return !(← isAt .eof))) (fun _ ↦ advance) fuel
      () : P Unit) (l ++ r :: post) () (r :: post) := by
  induction l generalizing fuel with
  | nil =>
    obtain ⟨fuel, rfl⟩ := Nat.exists_eq_succ_of_ne_zero (Nat.ne_of_gt hfuel)
    exact Reads.while_exit (ifAt_reads_same hr (.pure _ _))
  | cons t l ih =>
    obtain ⟨fuel, rfl⟩ := Nat.exists_eq_succ_of_ne_zero (Nat.ne_of_gt (Nat.zero_lt_of_lt hfuel))
    obtain ⟨hne, hbefore⟩ := List.forall_mem_cons.mp hbefore
    obtain ⟨hne', heof⟩ := List.forall_mem_cons.mp heof
    have hcond : Reads id (ifAt .rParen (return false) (return !(← isAt .eof)) : P Bool)
        (t :: (l ++ r :: post)) true (t :: (l ++ r :: post)) := by
      refine ifAt_reads_other hne (isAt_reads ?_)
      rw [decide_eq_false hne']
      exact .pure _ _
    exact Reads.while_again hcond .advance (ih hbefore heof (Nat.succ_lt_succ_iff.mp hfuel))

/-- **What is skipped**: everything up to the first closing parenthesis. -/
theorem skipOptionalParens_reads (ho : o.ty = .lParen) (hr : r.ty = .rParen)
    (hbefore : ∀ t ∈ l, t.ty ≠ .rParen) (heof : ∀ t ∈ l, t.ty ≠ .eof) (hfuel : l.length < fuel) :
    Reads id (skipOptionalParens fuel) (o :: (l ++ r :: post)) () post :=
  ifAt_reads_same ho <| (attempt_reads (eat_reads ho)).bind <|
    (skipLoop_reads hr hbefore heof hfuel).bind <| (attempt_reads (eat_reads hr)).bind <| .pure _ _

theorem skipOptionalParens_reads_other (ht : t.ty ≠ .lParen) :
    Reads id (skipOptionalParens fuel) (t :: l) () (t :: l) := ifAt_reads_other ht (.pure _ _)

/-! ## The class around the arguments -/

/-- The parser answers `a` at the cursor and leaves the tokens `l`. -/
def Leads (p : P α) (c : Cursor Token) (a : α) (l : List Token) : Prop :=
  ∃ d, p c = (.ok a, d) ∧ d.rest = l

theorem leads_bind {f : α → P β} :
    Leads (p >>= f) c b l ↔ ∃ a d, p c = (.ok a, d) ∧ Leads (f a) d b l := by
  constructor
  · rintro ⟨e, hrun, hrest⟩
    obtain ⟨a, d, hfirst, hsecond⟩ := exists_of_bind_ok hrun
    exact ⟨a, d, hfirst, e, hsecond, hrest⟩
  · rintro ⟨a, d, hfirst, e, hsecond, hrest⟩
    exact ⟨e, (bind_ok hfirst).trans hsecond, hrest⟩

theorem leads_bind_of_run {f : α → P β} (h : p c = (.ok a, d)) :
    Leads (p >>= f) c b l ↔ Leads (f a) d b l := by
  rw [Leads, bind_ok h, Leads]

theorem Near.leads_congr (hp : Near p) (hrest : c.rest = c'.rest)
    (hlast : c'.toks.getLast? = c.toks.getLast?) : Leads p c a l ↔ Leads p c' a l := by
  constructor
  · rintro ⟨d, hrun, hd⟩
    obtain ⟨d', hrun', hd'⟩ := Local.of_rest hp hrun hrest hlast
    exact ⟨d', hrun', hd'.trans hd⟩
  · rintro ⟨d, hrun, hd⟩
    obtain ⟨d', hrun', hd'⟩ := Local.of_rest hp hrun hrest.symm hlast.symm
    exact ⟨d', hrun', hd'.trans hd⟩

theorem leads_completed (hp : Near p) (start : ℕ) :
    Leads (completed start >>= fun _ ↦ p) c a l ↔ Leads p c a l := by
  have hrun : (completed start : P Unit) c = (.ok (), c.note (.round start c.pos)) := rfl
  rw [leads_bind_of_run hrun]
  exact hp.leads_congr rfl rfl

theorem moreItems_succ (item : P α) (k : ℕ) (out : List α) :
    moreItems item (k + 1) out = position >>= fun start ↦ maybe .comma >>= fun o ↦
      if o.isSome then item >>= fun a ↦ completed start >>= fun _ ↦ moreItems item k (out ++ [a])
      else pure out := by
  simp only [moreItems, whileLoop, loop, bind_assoc, pure_bind]
  refine bind_congr fun start ↦ bind_congr fun o ↦ ?_
  split_ifs
  · simp only [bind_assoc, pure_bind]
  · rfl

theorem maybe_of_eat (h : eat ty c = (.ok t, d)) : maybe ty c = (.ok (some t), d) := by
  obtain ⟨more, c₁, hat, hrest⟩ := exists_of_bind_ok h
  rw [maybe, bind_ok hat]
  cases more with
  | false =>
    obtain ⟨t', c₂, -, hfail⟩ := exists_of_bind_ok hrest
    cases hfail
  | true =>
    obtain ⟨t', c₂, hcur, hmove⟩ := exists_of_bind_ok hrest
    obtain ⟨_, c₃, hadvance, hpure⟩ := exists_of_bind_ok hmove
    cases hpure
    rw [if_pos rfl, bind_ok hcur, bind_ok hadvance]
    rfl

theorem ifMaybe_of_eat (h : eat ty c = (.ok t, d)) : ifMaybe ty p q c = p d := by
  rw [ifMaybe, bind_ok (maybe_of_eat h)]
  rfl

/-- From the cursor `c`, behind a base class, more of them are read up to the last name, behind
which the cursor is `c'`. -/
inductive MoreTo (fuel : ℕ) : Cursor Token → List String → Cursor Token → Prop
  | here {c c₁ c' : Cursor Token} {k t : Token} (hcomma : eat .comma c = (.ok k, c₁))
      (hname : eat .ident c₁ = (.ok t, c')) : MoreTo fuel c [t.value] c'
  | later {c c₁ c₂ c' : Cursor Token} {k : Token} {base : String} {bases : List String}
      (hcomma : eat .comma c = (.ok k, c₁)) (hbase : parseBase fuel c₁ = (.ok base, c₂))
      (h : MoreTo fuel c₂ bases c') : MoreTo fuel c (base :: bases) c'

/-- From the cursor `c` on the base classes are read up to the last name. -/
inductive BasesTo (fuel : ℕ) : Cursor Token → List String → Cursor Token → Prop
  | first {c c' : Cursor Token} {t : Token} (hname : eat .ident c = (.ok t, c')) :
      BasesTo fuel c [t.value] c'
  | more {c c₁ c' : Cursor Token} {base : String} {bases : List String}
      (hbase : parseBase fuel c = (.ok base, c₁)) (h : MoreTo fuel c₁ bases c') :
      BasesTo fuel c (base :: bases) c'

/-- The name of a class, and its parameters if it has any. -/
def classHead (fuel : ℕ) : P (String × List Param) := do
  let name := (← eat .ident).value
  let params ← ifMaybe .lParen (do
      let params ← parseParams fuel
      let _ ← eat .rParen
      return params)
    (return [])
  return (name, params)

/-- The base classes of a class, if it has any. -/
def classBases (fuel : ℕ) : P (List String) :=
  ifMaybe .colon (do moreItems (parseBase fuel) fuel [← parseBase fuel]) (return [])

/-- What follows the base classes. -/
def classTail (fuel depth : ℕ) (isData isSealed : Bool) (head : String × List Param)
    (bases : List String) : P ClassDecl := do
  let members := ifMaybe .lBrace (do
      let members ← whileNotAt .rBrace (parseMember fuel) fuel
      let _ ← eat .rBrace
      return (members, []))
    (return ([], []))
  let body ← (if isSealed then
      ifAtThen .lBrace .classKw (do
          let _ ← eat .lBrace
          let subclasses ← whileNotAt .rBrace (do
            let _ ← eat .classKw
            parseClass fuel depth false false) fuel
          let _ ← eat .rBrace
          return ([], subclasses))
        members
    else members)
  return .mk head.1 isData isSealed head.2 bases body.1 body.2

variable {depth : ℕ} {isData isSealed : Bool} {head : String × List Param} {bases : List String}

theorem parseClass_eq : parseClass fuel (depth + 1) isData isSealed = classHead fuel >>= fun head ↦
    classBases fuel >>= classTail fuel depth isData isSealed head := by
  rw [parseClass, classHead]
  simp only [bind_assoc, pure_bind]
  rfl

/-- The class names its base classes up to one, behind the name of which the cursor is `c'`. -/
def NamesBase (fuel : ℕ) (c : Cursor Token) (head : String × List Param) (bases : List String)
    (c' : Cursor Token) : Prop :=
  ∃ c₁ k c₂, classHead fuel c = (.ok head, c₁) ∧ eat .colon c₁ = (.ok k, c₂) ∧
    BasesTo fuel c₂ bases c'

theorem MoreTo.leads (h : MoreTo fuel c bases c') {f : List String → P β} (hf : ∀ out, Near (f out))
    (k : ℕ) (out : List String) :
    Leads (moreItems (parseBase fuel) (k + bases.length) out >>= f) c b l ↔
      Leads (skipOptionalParens fuel >>= fun _ ↦
        moreItems (parseBase fuel) k (out ++ bases) >>= f) c' b l := by
  have hnear : ∀ k out, Near (moreItems (parseBase fuel) k out >>= f) :=
    fun k out ↦ (moreItems_near parseBase_near out).bind hf
  have hstart : ∀ c : Cursor Token, (position : P ℕ) c = (.ok c.pos, c) := fun _ ↦ rfl
  induction h generalizing out with
  | @here c c₁ c' k' t hcomma hname =>
    rw [List.length_singleton, moreItems_succ, bind_assoc, leads_bind_of_run (hstart c), bind_assoc,
      leads_bind_of_run (maybe_of_eat hcomma), if_pos Option.isSome_some, bind_assoc, parseBase,
      bind_assoc, leads_bind_of_run hname, bind_assoc, leads_bind, leads_bind]
    refine exists_congr fun _ ↦ exists_congr fun d ↦ and_congr_right fun _ ↦ ?_
    rw [pure_bind, bind_assoc]
    exact leads_completed (hnear _ _) _
  | @later c c₁ c₂ c' k' base bases hcomma hbase _ ih =>
    rw [List.length_cons, ← Nat.add_assoc, moreItems_succ, bind_assoc, leads_bind_of_run (hstart c),
      bind_assoc, leads_bind_of_run (maybe_of_eat hcomma), if_pos Option.isSome_some, bind_assoc,
      leads_bind_of_run hbase, bind_assoc, leads_completed (hnear _ _)]
    have hrest := ih (out ++ [base])
    rwa [List.append_assoc, List.singleton_append] at hrest

theorem leads_bind_congr {f : α → P β} (h : p c = q d) :
    Leads (p >>= f) c b l ↔ Leads (q >>= f) d b l := by
  rw [leads_bind, leads_bind, h]

theorem classTail_near : Near (classTail fuel depth isData isSealed head bases) := by
  refine .bind (.ite (fun _ ↦ ifAtThen_local (eat_near.bind fun _ ↦ ?_) classMembers_near)
    fun _ ↦ classMembers_near) fun _ ↦ .pure _
  exact (whileNotAt_local (eat_near.bind fun _ ↦ parseClass_near depth false false)).bind fun _ ↦
    eat_near.bind fun _ ↦ .pure _

/-- What the class is from the last base class on. -/
def afterBase (fuel depth : ℕ) (isData isSealed : Bool) (head : String × List Param) (k : ℕ)
    (bases : List String) : P ClassDecl :=
  moreItems (parseBase fuel) k bases >>= classTail fuel depth isData isSealed head

theorem afterBase_near {k : ℕ} : Near (afterBase fuel depth isData isSealed head k bases) :=
  (moreItems_near parseBase_near bases).bind fun _ ↦ classTail_near

variable {decl : ClassDecl}

/-- **The parser gets to the last base class**, and then skips its arguments. -/
theorem NamesBase.leads (h : NamesBase fuel c head bases c') {k : ℕ}
    (hk : k + bases.length = fuel + 1) :
    Leads (parseClass fuel (depth + 1) isData isSealed) c decl l ↔
      Leads (skipOptionalParens fuel >>= fun _ ↦
        afterBase fuel depth isData isSealed head k bases) c' decl l := by
  obtain ⟨c₁, colon, c₂, hhead, hcolon, hbases⟩ := h
  have hclass : classBases fuel c₁
      = (parseBase fuel >>= fun base ↦ moreItems (parseBase fuel) fuel [base]) c₂ :=
    ifMaybe_of_eat hcolon
  rw [parseClass_eq, leads_bind_of_run hhead, leads_bind_congr hclass, bind_assoc]
  cases hbases with
  | first hname =>
    obtain rfl : k = fuel := Nat.succ_injective hk
    rw [parseBase, bind_assoc, leads_bind_of_run hname, bind_assoc, leads_bind, leads_bind]
    refine exists_congr fun _ ↦ exists_congr fun d ↦ and_congr_right fun _ ↦ ?_
    rw [pure_bind]
    rfl
  | @more _ _ base bases hbase hmore =>
    have hloop : moreItems (parseBase fuel) fuel [base]
        = moreItems (parseBase fuel) (k + bases.length) [base] :=
      congrArg (moreItems (parseBase fuel) · [base]) (Nat.succ_injective hk.symm)
    rw [leads_bind_of_run hbase, hloop]
    exact hmore.leads (fun _ ↦ classTail_near) k [base]

/-! ## The class without the arguments -/

/-- The cursor at the same place of a vector that has the tokens `post` from the place `m` on. -/
structure Twin (m : ℕ) (post : List Token) (c d : Cursor Token) : Prop where
  toks_eq : d.toks = c.toks.take m ++ post
  pos_eq : d.pos = c.pos
  le_length : m ≤ c.toks.length
  last_eq : post.getLast? = c.toks.getLast?
  post_ne : post ≠ []

variable {m : ℕ}

theorem Twin.getLast?_eq (h : Twin m post c d) : d.toks.getLast? = c.toks.getLast? := by
  rw [h.toks_eq, List.getLast?_append_of_ne_nil _ h.post_ne, h.last_eq]

theorem Twin.agree (h : Twin m post c d) : c.Agree (m - c.pos) d := by
  refine ⟨fun i hi ↦ ?_, h.getLast?_eq⟩
  have hlt : c.pos + i < (c.toks.take m).length := by
    rw [List.length_take, Nat.min_eq_left h.le_length]
    omega
  rw [h.toks_eq, h.pos_eq, List.getElem?_append_left hlt, List.getElem?_take_of_lt (by omega)]

theorem Twin.run (h : Twin m post c d) (hp : Near p) (hrun : p c = (.ok a, c'))
    (hm : c'.pos + 2 ≤ m) : ∃ d', p d = (.ok a, d') ∧ Twin m post c' d' := by
  obtain ⟨htoks, hpos⟩ := hp.moved hrun
  obtain ⟨d', hrun', htoks', hpos'⟩ := hp.of_agree hrun h.agree (by omega)
  have hd := h.pos_eq
  refine ⟨d', hrun', ?_, by omega, ?_, ?_, h.post_ne⟩
  · rw [htoks', htoks, h.toks_eq]
  · rw [htoks]
    exact h.le_length
  · rw [htoks]
    exact h.last_eq

theorem Twin.eat (h : Twin m post c d) (hrun : eat ty c = (.ok t, c')) (hm : c'.pos ≤ m) :
    ∃ d', eat ty d = (.ok t, d') ∧ Twin m post c' d' := by
  obtain ⟨hget, hty, htoks, hpos⟩ := eat_ok hrun
  have hsame := h.agree.get_eq 0 (by omega)
  rw [Nat.add_zero, Nat.add_zero, hget] at hsame
  obtain ⟨hlt, hget'⟩ := List.getElem?_eq_some_iff.mp hsame
  obtain ⟨d', hrun', -⟩ := eat_reads hty d (l := d.toks.drop (d.pos + 1)) (by
    rw [List.map_id, Cursor.rest, List.drop_eq_getElem_cons hlt, hget'])
  obtain ⟨-, -, htoks', hpos'⟩ := eat_ok hrun'
  have hd := h.pos_eq
  refine ⟨d', hrun', ?_, by omega, ?_, ?_, h.post_ne⟩
  · rw [htoks', htoks, h.toks_eq]
  · rw [htoks]
    exact h.le_length
  · rw [htoks]
    exact h.last_eq

theorem MoreTo.moved (h : MoreTo fuel c bases c') :
    c'.toks = c.toks ∧ c.pos + 2 * bases.length ≤ c'.pos ∧ 0 < bases.length := by
  induction h with
  | here hcomma hname =>
    obtain ⟨-, -, htoks, hpos⟩ := eat_ok hcomma
    obtain ⟨-, -, htoks', hpos'⟩ := eat_ok hname
    exact ⟨htoks'.trans htoks, by rw [List.length_singleton]; omega, Nat.one_pos⟩
  | later hcomma hbase _ ih =>
    obtain ⟨-, -, htoks, hpos⟩ := eat_ok hcomma
    obtain ⟨name, c₃, hname, hskip⟩ := exists_of_bind_ok hbase
    obtain ⟨-, -, htoks', hpos'⟩ := eat_ok hname
    obtain ⟨htoks'', hpos''⟩ := Local.moved (skipOptionalParens_near.bind_pure) hskip
    obtain ⟨hih, hih', -⟩ := ih
    refine ⟨?_, ?_, Nat.succ_pos _⟩
    · rw [hih, htoks'', htoks', htoks]
    · rw [List.length_cons]
      omega

theorem MoreTo.twin (h : MoreTo fuel c bases c') (htwin : Twin m post c d) (hm : c'.pos = m) :
    ∃ d', MoreTo fuel d bases d' ∧ Twin m post c' d' := by
  induction h generalizing d with
  | here hcomma hname =>
    obtain ⟨-, -, -, hpos⟩ := eat_ok hname
    obtain ⟨d₁, hcomma', htwin₁⟩ := htwin.eat hcomma (by omega)
    obtain ⟨d', hname', htwin'⟩ := htwin₁.eat hname hm.le
    exact ⟨d', .here hcomma' hname', htwin'⟩
  | later hcomma hbase hmore ih =>
    obtain ⟨-, hpos, hone⟩ := hmore.moved
    obtain ⟨-, hpos'⟩ := parseBase_near.moved hbase
    obtain ⟨d₁, hcomma', htwin₁⟩ := htwin.eat hcomma (by omega)
    obtain ⟨d₂, hbase', htwin₂⟩ := htwin₁.run parseBase_near hbase (by omega)
    obtain ⟨d', hmore', htwin'⟩ := ih htwin₂ hm
    exact ⟨d', .later hcomma' hbase' hmore', htwin'⟩

theorem BasesTo.moved (h : BasesTo fuel c bases c') :
    c'.toks = c.toks ∧ c.pos + bases.length ≤ c'.pos ∧ 0 < bases.length := by
  cases h with
  | first hname =>
    obtain ⟨-, -, htoks, hpos⟩ := eat_ok hname
    exact ⟨htoks, hpos.ge, Nat.one_pos⟩
  | more hbase hmore =>
    obtain ⟨htoks, hpos, hone⟩ := hmore.moved
    obtain ⟨htoks', hpos'⟩ := parseBase_near.moved hbase
    refine ⟨htoks.trans htoks', ?_, Nat.succ_pos _⟩
    rw [List.length_cons]
    omega

theorem BasesTo.twin (h : BasesTo fuel c bases c') (htwin : Twin m post c d) (hm : c'.pos = m) :
    ∃ d', BasesTo fuel d bases d' ∧ Twin m post c' d' := by
  cases h with
  | first hname =>
    obtain ⟨d', hname', htwin'⟩ := htwin.eat hname hm.le
    exact ⟨d', .first hname', htwin'⟩
  | more hbase hmore =>
    obtain ⟨-, hpos, hone⟩ := hmore.moved
    obtain ⟨d₁, hbase', htwin₁⟩ := htwin.run parseBase_near hbase (by omega)
    obtain ⟨d', hmore', htwin'⟩ := hmore.twin htwin₁ hm
    exact ⟨d', .more hbase' hmore', htwin'⟩

theorem classHead_near : Near (classHead fuel) :=
  eat_near.bind fun _ ↦ classParams_near.bind fun _ ↦ .pure _

theorem NamesBase.moved (h : NamesBase fuel c head bases c') :
    c'.toks = c.toks ∧ bases.length < c'.pos := by
  obtain ⟨c₁, colon, c₂, hhead, hcolon, hbases⟩ := h
  obtain ⟨htoks, hpos⟩ := classHead_near.moved hhead
  obtain ⟨-, -, htoks', hpos'⟩ := eat_ok hcolon
  obtain ⟨htoks'', hpos'', -⟩ := hbases.moved
  exact ⟨by rw [htoks'', htoks', htoks], by omega⟩

theorem NamesBase.twin (h : NamesBase fuel c head bases c') (htwin : Twin m post c d)
    (hm : c'.pos = m) : ∃ d', NamesBase fuel d head bases d' ∧ Twin m post c' d' := by
  obtain ⟨c₁, colon, c₂, hhead, hcolon, hbases⟩ := h
  obtain ⟨-, -, -, hpos⟩ := eat_ok hcolon
  obtain ⟨-, hpos', hone⟩ := hbases.moved
  obtain ⟨d₁, hhead', htwin₁⟩ := htwin.run classHead_near hhead (by omega)
  obtain ⟨d₂, hcolon', htwin₂⟩ := htwin₁.eat hcolon (by omega)
  obtain ⟨d', hbases', htwin'⟩ := hbases.twin htwin₂ hm
  exact ⟨d', ⟨d₁, colon, d₂, hhead', hcolon', hbases'⟩, htwin'⟩

theorem Twin.rest_eq (h : Twin m post c d) (hm : c.pos = m) : d.rest = post := by
  rw [Cursor.rest, h.toks_eq, h.pos_eq, hm, List.drop_left' ?_]
  rw [List.length_take, Nat.min_eq_left h.le_length]

/-! ## Skipping exactly -/

theorem Leads.length_le (hp : Near p) (h : Leads p c a l) : l.length ≤ c.rest.length := by
  obtain ⟨d, hrun, rfl⟩ := h
  obtain ⟨htoks, hpos⟩ := hp.moved hrun
  rw [Cursor.rest, Cursor.rest, List.length_drop, List.length_drop, htoks]
  omega

theorem leads_of_reads (h : Reads id p l a l') (hrest : c.rest = l) : Leads p c a l' := by
  obtain ⟨d, hrun, hd⟩ := h c (by rw [List.map_id, hrest])
  exact ⟨d, hrun, by rwa [List.map_id] at hd⟩

theorem Leads.unique {a' : α} (h : Leads p c a l) (h' : Leads p c a' l') : l = l' := by
  obtain ⟨d, hrun, rfl⟩ := h
  obtain ⟨d', hrun', rfl⟩ := h'
  rw [(Prod.mk.inj (hrun.symm.trans hrun')).2]

theorem Leads.of_ifAt (hrest : c.rest = t :: l') (hty : t.ty = ty) (h : Leads (ifAt ty p q) c a l) :
    ∃ d, d.rest = c.rest ∧ Leads p d a l := by
  obtain ⟨more, d, hat, hleads⟩ := leads_bind.mp h
  obtain ⟨t', hget, hmore, rfl⟩ := isAt_ok hat
  have ht : t' = t := by
    rw [← List.head?_drop] at hget
    exact Option.some.inj (hget.symm.trans (congrArg List.head? hrest))
  rw [hmore, ht, decide_eq_true hty, if_pos rfl] at hleads
  exact ⟨c.note (.look c.pos), rfl, hleads⟩

/-- Of arguments that are skipped, the first parenthesis at least is not left. -/
theorem skipOptionalParens_length {u : Unit} (ho : o.ty = .lParen) (hrest : c.rest = o :: post)
    (h : Leads (skipOptionalParens fuel) c u l) : l.length ≤ post.length := by
  obtain ⟨d, hd, hskip⟩ := h.of_ifAt hrest ho
  obtain ⟨found, c₁, hopen, hloop⟩ := leads_bind.mp hskip
  have hleads : Leads (attempt (eat .lParen)) d (some o) post :=
    leads_of_reads (attempt_reads (eat_reads ho)) (hd.trans hrest)
  obtain rfl : c₁.rest = post := Leads.unique ⟨c₁, hopen, rfl⟩ hleads
  exact hloop.length_le skipLoop_near

/-- Behind the last base class, where neither a comma nor a body follows, the class ends. -/
theorem afterBase_reads {k : ℕ} (hcomma : t.ty ≠ .comma) (hbrace : t.ty ≠ .lBrace) :
    Reads id (afterBase fuel depth isData false head (k + 1) bases) (t :: l)
      (.mk head.1 isData false head.2 bases [] []) (t :: l) := by
  have hmore : Reads id (moreItems (parseBase fuel) (k + 1) bases) (t :: l) bases (t :: l) := by
    refine Reads.while_exit ?_
    rw [maybe, bind_assoc]
    exact isAt_reads (by rw [decide_eq_false hcomma]; exact .pure _ _)
  refine hmore.bind ?_
  rw [classTail, if_neg Bool.false_ne_true]
  refine Reads.bind (a := ([], [])) ?_ (.pure _ _)
  rw [ifMaybe, maybe, bind_assoc]
  exact isAt_reads (by rw [decide_eq_false hbrace]; exact .pure _ _)

theorem arguments_before_eof (heof : EndsWithEof (l ++ o :: (content ++ r :: post)))
    (hr : r.ty = .rParen) : post ≠ [] ∧ ∀ t ∈ content, t.ty ≠ .eof := by
  obtain ⟨init, last, htoks, hlast, hinit⟩ := heof
  have hpost : post ≠ [] := by
    rintro rfl
    have hend := congrArg List.getLast? htoks
    rw [← List.cons_append, ← List.append_assoc, List.getLast?_concat, List.getLast?_concat] at hend
    obtain rfl := Option.some.inj hend
    cases hr.symm.trans hlast
  refine ⟨hpost, fun t ht ↦ hinit t ?_⟩
  have hdrop := congrArg List.dropLast htoks
  rw [List.dropLast_concat, ← List.cons_append, ← List.append_assoc,
    List.dropLast_append_of_ne_nil (List.cons_ne_nil r post)] at hdrop
  rw [← hdrop]
  exact List.mem_append_left _ (List.mem_append_right _ (List.mem_cons_of_mem _ ht))

/-- The class without the arguments between the cursor `c'` and the tokens `post`. -/
def withoutArguments (c c' : Cursor Token) (post : List Token) : Cursor Token :=
  { c with toks := c.toks.take c'.pos ++ post }

/-- **The arguments of a base class are skipped exactly**: the cursor comes to be behind them, and
the class is accepted as it would be without them, as the same declaration. -/
def SkippedExactly (fuel : ℕ) (c c' : Cursor Token) (post : List Token) : Prop :=
  Leads (skipOptionalParens fuel) c' () post ∧ ∀ depth isData isSealed decl l,
    Leads (parseClass fuel depth isData isSealed) c decl l ↔
      Leads (parseClass fuel depth isData isSealed) (withoutArguments c c' post) decl l

/-- Two classes, at `c` and at `w`, become what comes of them behind a base class, at `c'` and `d`.
-/
def ContinueAlike (fuel : ℕ) (head : String × List Param) (bases : List String) (k : ℕ)
    (c w c' d : Cursor Token) : Prop :=
  ∀ depth isData isSealed decl l,
    (Leads (parseClass fuel (depth + 1) isData isSealed) c decl l ↔
      Leads (skipOptionalParens fuel >>= fun _ ↦
        afterBase fuel depth isData isSealed head (k + 1) bases) c' decl l) ∧
    (Leads (parseClass fuel (depth + 1) isData isSealed) w decl l ↔
      Leads (skipOptionalParens fuel >>= fun _ ↦
        afterBase fuel depth isData isSealed head (k + 1) bases) d decl l)

theorem NamesBase.alike (h : NamesBase fuel c head bases c') (hfuel : c.toks.length ≤ fuel)
    (hplace : c'.pos < c.toks.length) (hlast : post.getLast? = c.toks.getLast?)
    (hpost : post ≠ []) :
    ∃ d k, d.rest = post ∧ d.toks.getLast? = c'.toks.getLast? ∧
      ContinueAlike fuel head bases k c (withoutArguments c c' post) c' d := by
  obtain ⟨htoks, hlength⟩ := h.moved
  have htwin : Twin c'.pos post c (withoutArguments c c' post) :=
    ⟨rfl, rfl, hplace.le, hlast, hpost⟩
  obtain ⟨d, hbase, htwin'⟩ := h.twin htwin rfl
  -- the rounds that are left for more base classes
  obtain ⟨k, hk⟩ : ∃ k, k + 1 + bases.length = fuel + 1 := ⟨fuel - bases.length, by omega⟩
  exact ⟨d, k, htwin'.rest_eq rfl, htwin'.getLast?_eq, fun _ _ _ _ _ ↦ ⟨h.leads hk, hbase.leads hk⟩⟩

section Alike

variable {k : ℕ} {w : Cursor Token} (halike : ContinueAlike fuel head bases k c w c' d)
  (hexact : Leads (skipOptionalParens fuel) c' () (t :: post)) (hd : d.rest = t :: post)

include halike hexact hd

/-- With a second pair the class ends in front of it, and without the first pair it is skipped. -/
theorem ContinueAlike.ne_lParen
    (hsame : ∀ decl l, Leads (parseClass fuel 1 false false) c decl l ↔
      Leads (parseClass fuel 1 false false) w decl l) : t.ty ≠ .lParen := by
  intro hparen
  have hcomma : t.ty ≠ .comma ∧ t.ty ≠ .lBrace := by
    rw [hparen]
    decide
  have hwith : Leads (skipOptionalParens fuel >>= fun _ ↦
      afterBase fuel 0 false false head (k + 1) bases) c'
      (.mk head.1 false false head.2 bases [] []) (t :: post) := by
    obtain ⟨e, hrun, he⟩ := hexact
    rw [leads_bind_of_run hrun]
    exact leads_of_reads (afterBase_reads hcomma.1 hcomma.2) he
  have hwithout := (halike 0 false false _ _).2.mp
    ((hsame _ _).mp ((halike 0 false false _ _).1.mpr hwith))
  obtain ⟨_, e, hrun, hafter⟩ := leads_bind.mp hwithout
  have hshort := skipOptionalParens_length hparen hd ⟨e, hrun, rfl⟩
  exact absurd (hafter.length_le afterBase_near) (not_le.mpr (Nat.lt_succ_of_le hshort))

/-- Without a second pair nothing is skipped in the class without the arguments. -/
theorem ContinueAlike.same (hlast : d.toks.getLast? = c'.toks.getLast?) (hne : t.ty ≠ .lParen)
    (depth : ℕ) (isData isSealed : Bool) (decl : ClassDecl) (l : List Token) :
    Leads (parseClass fuel depth isData isSealed) c decl l ↔
      Leads (parseClass fuel depth isData isSealed) w decl l := by
  cases depth with
  | zero =>
    have hnone : ∀ {c₁ : Cursor Token}, ¬Leads (parseClass fuel 0 isData isSealed) c₁ decl l := by
      rintro c₁ ⟨_, hrun, _⟩
      cases hrun
    exact iff_of_false hnone hnone
  | succ depth =>
    obtain ⟨e, hrun, he⟩ := hexact
    obtain ⟨e', hrun', he'⟩ := leads_of_reads (skipOptionalParens_reads_other hne) hd
    have hlast' : e'.toks.getLast? = e.toks.getLast? := by
      rw [(skipOptionalParens_near.moved hrun').1, (skipOptionalParens_near.moved hrun).1, hlast]
    rw [(halike depth isData isSealed decl l).1, (halike depth isData isSealed decl l).2,
      leads_bind_of_run hrun, leads_bind_of_run hrun']
    exact afterBase_near.leads_congr (he.trans he'.symm) hlast'

end Alike

/-- **Arguments are skipped exactly** when there is no parenthesis among them, and behind them no
second pair. -/
theorem base_arguments_iff (hbase : NamesBase fuel c head bases c') (heof : EndsWithEof c.toks)
    (hfuel : c.toks.length ≤ fuel) (ho : o.ty = .lParen) (hcontent : Balanced content)
    (hr : r.ty = .rParen) (hrest : c'.rest = o :: (content ++ r :: post)) :
    SkippedExactly fuel c c' post ↔ Flat content ∧ ∀ t ∈ post.head?, t.ty ≠ .lParen := by
  have htoks : c'.toks = c.toks := hbase.moved.1
  have hsplit : c.toks = c.toks.take c'.pos ++ o :: (content ++ r :: post) := by
    rw [← hrest, Cursor.rest, htoks, List.take_append_drop]
  obtain ⟨hpost, hcontent_eof⟩ := arguments_before_eof (hsplit ▸ heof) hr
  have hplace : c'.pos < c.toks.length := by
    by_contra hle
    rw [Cursor.rest, htoks, List.drop_eq_nil_of_le (not_lt.mp hle)] at hrest
    cases hrest
  have hlast : post.getLast? = c.toks.getLast? := by
    rw [hsplit, ← List.cons_append, ← List.append_assoc,
      List.getLast?_append_of_ne_nil _ (List.cons_ne_nil r post), ← List.singleton_append,
      List.getLast?_append_of_ne_nil _ hpost]
  have hlength : content.length < fuel := by
    have hlen := congrArg List.length hsplit
    simp only [List.length_append, List.length_cons] at hlen
    omega
  obtain ⟨d, k, hd, hdlast, halike⟩ := hbase.alike hfuel hplace hlast hpost
  obtain ⟨t, post, rfl⟩ := List.exists_cons_of_ne_nil hpost
  have hskip : ∀ l r post, r.ty = .rParen → (∀ t ∈ l, t.ty ≠ .rParen) → (∀ t ∈ l, t ∈ content) →
      c'.rest = o :: (l ++ r :: post) → l.length ≤ content.length →
      Leads (skipOptionalParens fuel) c' () post := fun l r post hr hl hsub hrest hle ↦
    leads_of_reads (skipOptionalParens_reads ho hr hl (fun t ht ↦ hcontent_eof t (hsub t ht))
      (by omega)) hrest
  constructor
  · rintro ⟨hexact, hsame⟩
    have hflat : Flat content := by
      refine hcontent.flat_or.resolve_right ?_
      rintro ⟨before, r', after, rfl, hr', hbefore⟩
      have hrest' : c'.rest = o :: (before ++ r' :: (after ++ r :: t :: post)) := by
        rw [hrest, List.append_assoc, List.cons_append]
      have hfirst := hskip before r' _ hr' hbefore (fun t ht ↦ List.mem_append_left _ ht) hrest'
        (by rw [List.length_append]; omega)
      have hlen := congrArg List.length (hfirst.unique hexact)
      simp only [List.length_append, List.length_cons] at hlen
      omega
    refine ⟨hflat, fun t' ht' ↦ ?_⟩
    obtain rfl : t = t' := Option.some.inj ht'
    exact halike.ne_lParen hexact hd (hsame 1 false false)
  · rintro ⟨hflat, hhead⟩
    have hexact := hskip content r _ hr (fun t ht ↦ (hflat t ht).2) (fun _ ht ↦ ht) hrest
      le_rfl
    exact ⟨hexact, halike.same hexact hd hdlast (hhead t rfl)⟩

/-- The cursor behind the name of the one base class of a class without parameters. -/
def behindBase (fuel : ℕ) (c : Cursor Token) : Cursor Token :=
  ((do
    let _ ← classHead fuel
    let _ ← eat .colon
    eat .ident : P Token) c).2

/-- The tokens of a class whose base class has one argument. -/
def flatArguments : List Token :=
  [⟨.classKw, "class", 1, 1⟩, ⟨.ident, "A", 1, 7⟩, ⟨.colon, ":", 1, 9⟩, ⟨.ident, "B", 1, 11⟩,
    ⟨.lParen, "(", 1, 12⟩, ⟨.ident, "x", 1, 13⟩, ⟨.rParen, ")", 1, 14⟩, ⟨.lBrace, "\x7b", 1, 16⟩,
    ⟨.rBrace, "\x7d", 1, 18⟩, ⟨.eof, "", 1, 19⟩]

theorem base_arguments_iff_flat :
    SkippedExactly 10 ⟨flatArguments, 1, []⟩ (behindBase 10 ⟨flatArguments, 1, []⟩)
      (flatArguments.drop 7) := by
  have hbase : NamesBase 10 ⟨flatArguments, 1, []⟩ ("A", []) ["B"]
      (behindBase 10 ⟨flatArguments, 1, []⟩) :=
    ⟨_, _, _, rfl, rfl, .first (t := ⟨.ident, "B", 1, 11⟩) rfl⟩
  have hcontent : Balanced [⟨.ident, "x", 1, 13⟩] := .token (by decide) (by decide) .nil
  have heof : EndsWithEof flatArguments := ⟨flatArguments.dropLast, _, rfl, rfl, by decide⟩
  exact (base_arguments_iff hbase heof (by decide) (o := ⟨.lParen, "(", 1, 12⟩) rfl hcontent
    (r := ⟨.rParen, ")", 1, 14⟩) rfl rfl).mpr ⟨by unfold Flat; decide, by decide⟩

/-- The tokens of a class whose base class has a call as its argument. -/
def nestedArguments : List Token :=
  [⟨.classKw, "class", 1, 1⟩, ⟨.ident, "A", 1, 7⟩, ⟨.colon, ":", 1, 9⟩, ⟨.ident, "B", 1, 11⟩,
    ⟨.lParen, "(", 1, 12⟩, ⟨.ident, "f", 1, 13⟩, ⟨.lParen, "(", 1, 14⟩, ⟨.ident, "x", 1, 15⟩,
    ⟨.rParen, ")", 1, 16⟩, ⟨.rParen, ")", 1, 17⟩, ⟨.lBrace, "\x7b", 1, 19⟩,
    ⟨.rBrace, "\x7d", 1, 21⟩, ⟨.eof, "", 1, 22⟩]

/-- **The arguments of `class A : B(f(x)) { }` are not skipped**: the second closing parenthesis is
left. -/
theorem nested_arguments_left :
    tokenize "class A : B(f(x)) \x7b \x7d" = some (.ok nestedArguments) ∧
    NamesBase 13 ⟨nestedArguments, 1, []⟩ ("A", []) ["B"]
      (behindBase 13 ⟨nestedArguments, 1, []⟩) ∧
    Balanced ((nestedArguments.take 9).drop 5) ∧
    ¬SkippedExactly 13 ⟨nestedArguments, 1, []⟩ (behindBase 13 ⟨nestedArguments, 1, []⟩)
      (nestedArguments.drop 10) := by
  have hcall : Balanced [⟨.ident, "x", 1, 15⟩] := .token (by decide) (by decide) .nil
  refine ⟨rfl, ⟨_, _, _, rfl, rfl, .first (t := ⟨.ident, "B", 1, 11⟩) rfl⟩,
    .token (by decide) (by decide) ?_, fun hskipped ↦ ?_⟩
  · exact @Balanced.parens ⟨.lParen, "(", 1, 14⟩ ⟨.rParen, ")", 1, 16⟩ _ [] rfl rfl hcall .nil
  · have hleft : Leads (skipOptionalParens 13) (behindBase 13 ⟨nestedArguments, 1, []⟩) ()
        (nestedArguments.drop 9) := ⟨_, rfl, rfl⟩
    have hlen := congrArg List.length (hleft.unique hskipped.1)
    cases hlen

end Agex

end Zeroxos
