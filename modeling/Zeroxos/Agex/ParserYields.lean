import Zeroxos.Agex.Lexemes
import Zeroxos.Agex.ParserTotal

/-!
# What the parser makes of the tokens of the lexer

`Yields` says of a function of the parser what its answer is like when every token is written as its
type says. There is one rule for each way in which the functions are put together.
-/

namespace Zeroxos

namespace Agex

open Parse

/-- What a function of the parser returns, on tokens of the lexer. -/
abbrev Yields {α : Type} (n : ℕ) (p : P α) (post : α → Prop) : Prop :=
  Finds IsEof WellWritten n (fun _ ↦ True) p post

variable {α : Type} {n fuel : ℕ} {pre : Token → Prop} {ty next : TokenType} {p q : P α}
  {post : α → Prop} {tok : Token}

theorem isAt_yields {f : Bool → P α}
    (htrue : Finds IsEof WellWritten n (fun t ↦ pre t ∧ t.ty = ty) (f true) post)
    (hfalse : Finds IsEof WellWritten n (fun t ↦ pre t ∧ t.ty ≠ ty) (f false) post) :
    Finds IsEof WellWritten n pre (isAt ty >>= f) post := by
  rw [isAt, bind_assoc]
  refine Finds.current_bind fun t _ ht ↦ ?_
  rw [pure_bind]
  by_cases hty : t.ty = ty
  · rw [decide_eq_true hty]
    exact htrue.mono le_rfl (fun t' h ↦ h ▸ ⟨ht, hty⟩) fun _ h ↦ h
  · rw [decide_eq_false hty]
    exact hfalse.mono le_rfl (fun t' h ↦ h ▸ ⟨ht, hty⟩) fun _ h ↦ h

theorem isAt_any {f : Bool → P α} (h : ∀ b, Yields n (f b) post) :
    Finds IsEof WellWritten n pre (isAt ty >>= f) post :=
  isAt_yields (h true).weaken (h false).weaken

theorem ifAt_yields (hp : Yields n p post) (hq : Yields n q post) :
    Finds IsEof WellWritten n pre (ifAt ty p q) post := isAt_yields hp.weaken hq.weaken

theorem ifAtThen_yields (hp : Yields n p post) (hq : Yields n q post) :
    Finds IsEof WellWritten n pre (ifAtThen ty next p q) post := by
  refine isAt_yields (Finds.lookahead_bind fun t ↦ ?_) hq.weaken
  split_ifs
  · exact hp.weaken
  · exact hq.weaken

theorem ifMaybe_yields (hty : ty ≠ .eof) (hp : Yields n p post) (hq : Yields n q post) :
    Yields n (ifMaybe ty p q) post := by
  refine .after (j := 0) ((maybe_safe hty).mono le_rfl (fun _ h ↦ h) fun _ ↦ Nat.zero_le _)
    fun o ↦ ?_
  cases o with
  | none => exact hq
  | some t => exact hp

theorem eat_yields : Finds IsEof WellWritten n pre (eat ty) fun t ↦ WellWritten t ∧ t.ty = ty := by
  intro c _ _ _ hgood t c' heq
  obtain ⟨hget, hty, -⟩ := eat_ok heq
  exact ⟨hgood t (List.mem_of_getElem? hget), hty⟩

theorem eatCur_yields : Finds IsEof WellWritten n (fun t ↦ t = tok) eatCur fun t ↦ t = tok := by
  intro c _ ht _ _ t c' heq
  obtain ⟨t₁, c₁, hcur, heat⟩ := exists_of_bind_ok heq
  obtain ⟨-, rfl⟩ := cur_ok hcur
  obtain ⟨hget, -⟩ := eat_ok heat
  exact ht t hget

theorem whileNotAt_yields {close : TokenType} {item : P α} (htakes : Takes n item 1)
    (hitem : Yields n item post) :
    Yields n (whileNotAt close item fuel) fun out ↦ ∀ a ∈ out, post a := by
  have hcond : Takes n (do return !(← isAt close)) 0 := isAt_bind (Safe.pure _) (Safe.pure _)
  refine .whileLoop hcond (fun _ ↦ htakes.bind_pure) (fun out hout ↦ .bind_pure ?_) fuel
    fun _ h ↦ nomatch h
  exact hitem.imp fun a ha ↦ List.forall_mem_append.mpr ⟨hout, List.forall_mem_singleton.mpr ha⟩

theorem items_yields {close : TokenType} {item : P α} (htakes : Takes n item 1)
    (hitem : Yields n item post) :
    Yields n (items close item fuel) fun out ↦ ∀ a ∈ out, post a := by
  refine ifAt_yields (.pure fun _ h ↦ nomatch h) (.bind htakes hitem fun a ha ↦ ?_)
  have hcond : ∀ {m}, Takes m (do return (← maybe .comma).isSome) 0 :=
    Safe.bind ((maybe_safe (by decide)).mono le_rfl (fun _ h ↦ h) fun _ ↦ Nat.zero_le _)
      fun _ ↦ Safe.pure _
  have hsmaller : Takes (n - 1) item 1 := htakes.le (Nat.sub_le n 1)
  refine .whileLoop hcond (fun _ ↦ hsmaller.bind_pure) (fun out hout ↦ .bind_pure ?_) fuel
    (List.forall_mem_singleton.mpr ha)
  exact hitem.mono (Nat.sub_le n 1) (fun _ h ↦ h) fun a ha ↦
    List.forall_mem_append.mpr ⟨hout, List.forall_mem_singleton.mpr ha⟩

/-- What the parser makes of the tokens of every declaration, the declarations of a parsed program
are. -/
theorem forall_decls_of_parse {post : Decl → Prop} {src : String} {toks : List Token}
    (hdecl : Yields toks.length (parseDecl fuel) post) (htoks : tokenize src = some (.ok toks))
    (hfuel : toks.length ≤ fuel) {prog : Program} (hprog : parse fuel src = .ok prog) :
    ∀ d ∈ prog.decls, post d := by
  obtain ⟨r, hr, hspec⟩ := tokenize_spec src
  obtain rfl : r = .ok toks := Option.some.inj (hr.symm.trans htoks)
  have hvalid := (hspec toks rfl).valid
  have hrem : (newParser toks).remaining < toks.length := by
    have hpos := hvalid.pos_lt
    show toks.length - 1 - 0 < toks.length
    exact Nat.sub_lt hpos Nat.one_pos
  have hyields : Yields toks.length (parseProgram fuel) fun prog ↦ ∀ d ∈ prog.decls, post d :=
    .bind_pure (whileNotAt_yields (parseDecl_takes hfuel) hdecl)
  rw [parse, htoks] at hprog
  exact hyields _ hvalid (fun _ _ ↦ trivial) hrem (wellWritten_tokenize htoks) prog _
    (Prod.ext hprog rfl)

end Agex

end Zeroxos
