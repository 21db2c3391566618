import Mathlib.Data.Finset.Card
import Mathlib.Data.Finset.Prod
import Mathlib.Tactic.Common
import Zeroxos.Fs.Journal

/-!
# What replay applies

Which entries `replay` applies is a matter of positions. A transaction `t` begun by the entry at `b`
is *current* at a later position `c` when no `Begin` and no `Commit` of `t` lies strictly between,
and the entry at `c` *closes* it when it is its `Commit`. The loop holds the current transaction and
walks, at every closing entry, what was read since the `Begin`.

## The invariant

`Reads` says of the variables of the loop what they are after a log, in terms of positions, and is
proved entry by entry (`replayLoop_reads`): the closed transactions were counted, and applied were,
in order and once each, the positions that lie from the `Begin` of a closed transaction up to its
`Commit` and hold no `Commit` themselves. Whose entries these are does not enter.

## What it is for

The properties of the journal are about numbers of transactions and not about positions. They are
derived from this description, and never look at the loop again.
-/

namespace Zeroxos

variable {log : List JournalEntry} {e : JournalEntry} {r : Replay} {b b' c c' i k n t t' : ℕ}
  {m : JournalOp × ℕ}

/-- What replay reads of the entry at a position: its operation and its number. -/
def mark (log : List JournalEntry) (k : ℕ) : Option (JournalOp × ℕ) :=
  log[k]?.map fun e ↦ (e.op, e.seq)

/-- The transaction `t`, begun at `b`, is current when position `c` is read. -/
def Current (log : List JournalEntry) (t b c : ℕ) : Prop :=
  mark log b = some (.begin, t) ∧ b < c ∧
    ∀ k < c, b < k → ∀ m ∈ mark log k, m.1 ≠ .begin ∧ m ≠ (.commit, t)

/-- The transaction `t`, begun at `b`, is closed by its `Commit` at `c`. -/
def Closes (log : List JournalEntry) (t b c : ℕ) : Prop :=
  mark log c = some (.commit, t) ∧ Current log t b c

instance : Decidable (Current log t b c) := inferInstanceAs (Decidable (_ ∧ _ ∧ _))

instance : Decidable (Closes log t b c) := inferInstanceAs (Decidable (_ ∧ _))

/-- The closed transactions, each as the positions of its `Begin` and of its `Commit`. -/
def closed (log : List JournalEntry) : Finset (ℕ × ℕ) :=
  (Finset.range log.length ×ˢ Finset.range log.length).filter fun p ↦
    ∃ m ∈ mark log p.2, Closes log m.2 p.1 p.2

/-- The entry at `i` is there and is no `Commit`. -/
def Applicable (log : List JournalEntry) (i : ℕ) : Prop := ∃ m ∈ mark log i, m.1 ≠ .commit

/-! ## Positions -/

theorem lt_of_mark (h : mark log k = some m) : k < log.length := by
  obtain ⟨e, he, -⟩ := Option.map_eq_some_iff.mp h
  exact (List.getElem?_eq_some_iff.mp he).1

theorem mark_concat (log : List JournalEntry) (e : JournalEntry) (k : ℕ) :
    mark (log ++ [e]) k = if k = log.length then some (e.op, e.seq) else mark log k := by
  rw [mark, mark]
  split_ifs with hk
  · simp [hk]
  · rcases lt_or_gt_of_ne hk with hlt | hgt
    · rw [List.getElem?_append_left hlt]
    · rw [List.getElem?_eq_none (by simp; omega), List.getElem?_eq_none (by omega)]

theorem mark_concat_of_lt (e : JournalEntry) (hk : k < log.length) :
    mark (log ++ [e]) k = mark log k := by
  rw [mark_concat, if_neg hk.ne]

theorem mark_concat_length (log : List JournalEntry) (e : JournalEntry) :
    mark (log ++ [e]) log.length = some (e.op, e.seq) := by
  rw [mark_concat, if_pos rfl]

theorem mark_concat_eq_some (h : mark (log ++ [e]) k = some m) :
    (k = log.length ∧ m = (e.op, e.seq)) ∨ mark log k = some m := by
  rw [mark_concat] at h
  split_ifs at h with hk
  · exact .inl ⟨hk, (Option.some_inj.mp h).symm⟩
  · exact .inr h

theorem mem_closed {p : ℕ × ℕ} : p ∈ closed log ↔ ∃ t, Closes log t p.1 p.2 := by
  simp only [closed, Finset.mem_filter, Finset.mem_product, Finset.mem_range]
  constructor
  · rintro ⟨-, m, -, h⟩
    exact ⟨m.2, h⟩
  · rintro ⟨t, h⟩
    exact ⟨⟨lt_of_mark h.2.1, lt_of_mark h.1⟩, (.commit, t), h.1, h⟩

theorem Current.unique (h : Current log t b c) (h' : Current log t' b' c) : b = b' ∧ t = t' := by
  obtain ⟨hb, hbc, hclear⟩ := h
  obtain ⟨hb', hbc', hclear'⟩ := h'
  rcases lt_trichotomy b b' with hlt | rfl | hgt
  · exact absurd rfl (hclear b' hbc' hlt _ hb').1
  · rw [hb, Option.some_inj, Prod.mk.injEq] at hb'
    exact ⟨rfl, hb'.2⟩
  · exact absurd rfl (hclear' b hbc hgt _ hb).1

theorem Current.le_of_closes (h : Current log t b c) (h' : Closes log t' b' c') (hc : c' < c) :
    c' < b := by
  obtain ⟨hb, hbc, hclear⟩ := h
  obtain ⟨hc', hb', hbc', hclear'⟩ := h'
  by_contra hle
  rcases lt_trichotomy b b' with hlt | rfl | hgt
  · exact (hclear b' (hbc'.trans hc) hlt _ hb').1 rfl
  · rw [hb, Option.some_inj, Prod.mk.injEq] at hb'
    exact (hclear c' hc hbc' _ hc').2 (by rw [hb'.2])
  · -- the `Begin` at `b` would lie inside the earlier span
    have hne : b ≠ c' := by
      rintro rfl
      rw [hb] at hc'
      cases hc'
    exact (hclear' b (by omega) hgt _ hb).1 rfl

/-! ## One more entry -/

theorem current_concat (e : JournalEntry) (hc : c ≤ log.length) :
    Current (log ++ [e]) t b c ↔ Current log t b c := by
  unfold Current
  refine ⟨?_, ?_⟩
  · rintro ⟨hb, hbc, hclear⟩
    rw [mark_concat_of_lt e (hbc.trans_le hc)] at hb
    refine ⟨hb, hbc, fun k hk hbk m hm ↦ hclear k hk hbk m ?_⟩
    rw [mark_concat_of_lt e (hk.trans_le hc)]
    exact hm
  · rintro ⟨hb, hbc, hclear⟩
    refine ⟨?_, hbc, fun k hk hbk m hm ↦ hclear k hk hbk m ?_⟩
    · rw [mark_concat_of_lt e (hbc.trans_le hc), hb]
    · rw [mark_concat_of_lt e (hk.trans_le hc)] at hm
      exact hm

/-- A transaction is current at the end when the last entry begins it, or when it was current before
and the last entry neither begins another nor commits it. -/
theorem current_concat_length :
    Current (log ++ [e]) t b (log ++ [e]).length ↔
      (b = log.length ∧ e.op = .begin ∧ e.seq = t) ∨
        (Current log t b log.length ∧ e.op ≠ .begin ∧ (e.op, e.seq) ≠ (.commit, t)) := by
  rw [List.length_append, List.length_singleton]
  constructor
  · rintro ⟨hb, hbc, hclear⟩
    rcases mark_concat_eq_some hb with ⟨rfl, hm⟩ | hb
    · rw [Prod.mk.injEq] at hm
      exact .inl ⟨rfl, hm.1.symm, hm.2.symm⟩
    · have hlt := lt_of_mark hb
      obtain ⟨hbegin, hcommit⟩ :=
        hclear log.length (Nat.lt_succ_self _) hlt _ (mark_concat_length log e)
      refine .inr ⟨⟨hb, hlt, fun k hk hbk m hm ↦ hclear k (by omega) hbk m ?_⟩, hbegin, hcommit⟩
      rw [mark_concat_of_lt e hk]
      exact hm
  · rintro (⟨rfl, hop, rfl⟩ | ⟨⟨hb, hbc, hclear⟩, hbegin, hcommit⟩)
    · refine ⟨by rw [mark_concat_length, hop], by omega, fun k hk hbk ↦ by omega⟩
    · refine ⟨by rw [mark_concat_of_lt e hbc, hb], by omega, fun k hk hbk m hm ↦ ?_⟩
      rcases mark_concat_eq_some hm with ⟨-, rfl⟩ | hm
      · exact ⟨hbegin, hcommit⟩
      · exact hclear k (lt_of_mark hm) hbk m hm

theorem closes_concat :
    Closes (log ++ [e]) t b c ↔ Closes log t b c ∨
      (c = log.length ∧ (e.op, e.seq) = (.commit, t) ∧ Current log t b log.length) := by
  constructor
  · rintro ⟨hc, hcur⟩
    rcases mark_concat_eq_some hc with ⟨rfl, hm⟩ | hc
    · exact .inr ⟨rfl, hm.symm, (current_concat e le_rfl).mp hcur⟩
    · exact .inl ⟨hc, (current_concat e (lt_of_mark hc).le).mp hcur⟩
  · rintro (⟨hc, hcur⟩ | ⟨rfl, hm, hcur⟩)
    · have hlt := lt_of_mark hc
      exact ⟨by rw [mark_concat_of_lt e hlt, hc], (current_concat e hlt.le).mpr hcur⟩
    · exact ⟨by rw [mark_concat_length, hm], (current_concat e le_rfl).mpr hcur⟩

theorem applicable_concat :
    Applicable (log ++ [e]) i ↔ Applicable log i ∨ (i = log.length ∧ e.op ≠ .commit) := by
  constructor
  · rintro ⟨m, hm, hne⟩
    rcases mark_concat_eq_some hm with ⟨rfl, rfl⟩ | hm
    · exact .inr ⟨rfl, hne⟩
    · exact .inl ⟨m, hm, hne⟩
  · rintro (⟨m, hm, hne⟩ | ⟨rfl, hne⟩)
    · exact ⟨m, by rw [mark_concat_of_lt e (lt_of_mark hm)]; exact hm, hne⟩
    · exact ⟨_, mark_concat_length log e, hne⟩

/-- The position `i` is replayed: it lies in a closed transaction, and holds no `Commit`. -/
def Replayed (log : List JournalEntry) (i : ℕ) : Prop :=
  (∃ t b c, Closes log t b c ∧ b ≤ i ∧ i < c) ∧ Applicable log i

/-- The last entry adds to what is replayed when it commits the current transaction. -/
theorem replayed_concat :
    Replayed (log ++ [e]) i ↔ Replayed log i ∨
      (e.op = .commit ∧ ∃ b, Current log e.seq b log.length ∧ b ≤ i ∧ Applicable log i) := by
  constructor
  · rintro ⟨⟨t, b, c, hclose, hb, hc⟩, happ⟩
    rcases closes_concat.mp hclose with hclose | ⟨rfl, hm, hcur⟩
    · have hlt := hc.trans (lt_of_mark hclose.1)
      exact .inl ⟨⟨t, b, c, hclose, hb, hc⟩,
        (applicable_concat.mp happ).resolve_right fun h ↦ hlt.ne h.1⟩
    · obtain ⟨hop, rfl⟩ := Prod.mk.injEq _ _ _ _ ▸ hm
      exact .inr ⟨hop, b, hcur, hb, (applicable_concat.mp happ).resolve_right fun h ↦ hc.ne h.1⟩
  · rintro (⟨⟨t, b, c, hclose, hb, hc⟩, happ⟩ | ⟨hop, b, hcur, hb, happ⟩)
    · exact ⟨⟨t, b, c, closes_concat.mpr (.inl hclose), hb, hc⟩, applicable_concat.mpr (.inl happ)⟩
    · obtain ⟨m, hm, -⟩ := id happ
      exact ⟨⟨e.seq, b, log.length, closes_concat.mpr (.inr ⟨rfl, by rw [hop], hcur⟩), hb,
        lt_of_mark hm⟩, applicable_concat.mpr (.inl happ)⟩

theorem closed_concat_of_not_current
    (h : e.op = .commit → ∀ b, ¬Current log e.seq b log.length) :
    closed (log ++ [e]) = closed log := by
  ext p
  rw [mem_closed, mem_closed]
  refine exists_congr fun t ↦ closes_concat.trans (or_iff_left ?_)
  rintro ⟨-, hm, hcur⟩
  obtain ⟨hop, rfl⟩ := Prod.mk.injEq _ _ _ _ ▸ hm
  exact h hop _ hcur

theorem closed_concat_of_current (hop : e.op = .commit) (hcur : Current log e.seq b log.length) :
    closed (log ++ [e]) = insert (b, log.length) (closed log) := by
  ext ⟨b', c⟩
  rw [Finset.mem_insert, mem_closed, mem_closed, Prod.mk.injEq]
  constructor
  · rintro ⟨t, hclose⟩
    rcases closes_concat.mp hclose with hclose | ⟨rfl, hm, hcur'⟩
    · exact .inr ⟨t, hclose⟩
    · exact .inl ⟨(hcur'.unique hcur).1, rfl⟩
  · rintro (⟨rfl, rfl⟩ | ⟨t, hclose⟩)
    · exact ⟨e.seq, closes_concat.mpr (.inr ⟨rfl, by rw [hop], hcur⟩)⟩
    · exact ⟨t, closes_concat.mpr (.inl hclose)⟩

/-! ## The loop -/

/-- What the loop knows of the part of the log it has read. -/
structure Replay.Reads (r : Replay) (log : List JournalEntry) : Prop where
  count : r.count = (closed log).card
  current : ∀ t, r.currentTxn = some t ↔ ∃ b, Current log t b log.length
  pending : ∀ t b, Current log t b log.length →
    ∀ i, i ∈ r.txnEntries ↔ b ≤ i ∧ Applicable log i
  pending_sorted : r.txnEntries.Pairwise (· < ·)
  applied : ∀ i, i ∈ r.applied ↔ Replayed log i
  applied_sorted : r.applied.Pairwise (· < ·)

theorem Applicable.lt (h : Applicable log i) : i < log.length := by
  obtain ⟨m, hm, -⟩ := h
  exact lt_of_mark hm

namespace Replay.Reads

theorem start : Replay.start.Reads [] where
  count := rfl
  current t := by simp [Replay.start, Current]
  pending t b h := by simp [Current] at h
  pending_sorted := .nil
  applied i := by simp [Replay.start, Replayed, Applicable, mark]
  applied_sorted := .nil

theorem of_not_current (h : r.Reads log)
    (hnot : e.op = .commit → ∀ b, ¬Current log e.seq b log.length) :
    r.count = (closed (log ++ [e])).card ∧ ∀ i, i ∈ r.applied ↔ Replayed (log ++ [e]) i := by
  refine ⟨?_, fun i ↦ ?_⟩
  · rw [closed_concat_of_not_current hnot]
    exact h.count
  · rw [replayed_concat, h.applied, or_iff_left]
    rintro ⟨hop, b, hcur, -⟩
    exact hnot hop b hcur

theorem step_begin (h : r.Reads log) (hop : e.op = .begin) :
    (r.step log.length e).Reads (log ++ [e]) := by
  have hstep : r.step log.length e
      = { r with currentTxn := some e.seq, txnEntries := [log.length] } := by
    rw [step, hop]
  have hne : e.op ≠ .commit := by simp [hop]
  obtain ⟨hcount, happlied⟩ := h.of_not_current fun hc ↦ absurd hc hne
  rw [hstep]
  refine ⟨hcount, fun t ↦ ?_, fun t b hcur i ↦ ?_, List.pairwise_singleton _ _, happlied,
    h.applied_sorted⟩
  · simp only [current_concat_length]
    simp [hop]
  · obtain ⟨rfl, -, -⟩ := (current_concat_length.mp hcur).resolve_right fun hc ↦ hc.2.1 hop
    rw [List.mem_singleton, applicable_concat]
    constructor
    · rintro rfl
      exact ⟨le_rfl, .inr ⟨rfl, hne⟩⟩
    · rintro ⟨hle, happ | ⟨rfl, -⟩⟩
      · exact absurd happ.lt hle.not_gt
      · rfl

theorem step_operation (h : r.Reads log) (hbegin : e.op ≠ .begin) (hcommit : e.op ≠ .commit) :
    (r.step log.length e).Reads (log ++ [e]) := by
  have hcurrent : ∀ t b,
      Current (log ++ [e]) t b (log ++ [e]).length ↔ Current log t b log.length := by
    simp only [current_concat_length]
    simp [hbegin, hcommit]
  obtain ⟨hcount, happlied⟩ := h.of_not_current fun hc ↦ absurd hc hcommit
  have hstep : r.step log.length e
      = if r.currentTxn.isSome then { r with txnEntries := r.txnEntries ++ [log.length] }
        else r := by
    rw [step]
    split <;> simp_all
  rw [hstep]
  split_ifs with hsome
  · obtain ⟨t, ht⟩ := Option.isSome_iff_exists.mp hsome
    obtain ⟨b, hcur⟩ := (h.current t).mp ht
    refine ⟨hcount, fun t ↦ ?_, fun t b hcur i ↦ ?_, ?_, happlied, h.applied_sorted⟩
    · simp only [hcurrent]
      exact h.current t
    · rw [hcurrent] at hcur
      rw [List.mem_append, List.mem_singleton, h.pending t b hcur, applicable_concat]
      constructor
      · rintro (⟨hle, happ⟩ | rfl)
        · exact ⟨hle, .inl happ⟩
        · exact ⟨hcur.2.1.le, .inr ⟨rfl, hcommit⟩⟩
      · rintro ⟨hle, happ | ⟨hi, -⟩⟩
        · exact .inl ⟨hle, happ⟩
        · exact .inr hi
    · refine List.pairwise_append.mpr ⟨h.pending_sorted, List.pairwise_singleton _ _, ?_⟩
      intro i hi j hj
      rw [List.mem_singleton.mp hj]
      exact ((h.pending t b hcur i).mp hi).2.lt
  · -- between transactions an operation is not held at all
    have hnone : ∀ t b, ¬Current log t b log.length := fun t b hcur ↦
      hsome (Option.isSome_iff_exists.mpr ⟨t, (h.current t).mpr ⟨b, hcur⟩⟩)
    refine ⟨hcount, fun t ↦ ?_, fun t b hcur ↦ ?_, h.pending_sorted, happlied, h.applied_sorted⟩
    · simp only [hcurrent]
      exact h.current t
    · exact absurd ((hcurrent t b).mp hcur) (hnone t b)

theorem step_close (h : r.Reads log) (hop : e.op = .commit) (ht : r.currentTxn = some e.seq) :
    (r.step log.length e).Reads (log ++ [e]) := by
  obtain ⟨b, hcur⟩ := (h.current e.seq).mp ht
  have hstep : r.step log.length e = { r with
      count := r.count + 1, currentTxn := none, applied := r.applied ++ r.txnEntries } := by
    rw [step, hop]
    exact if_pos ht
  have hnone : ∀ t b, ¬Current (log ++ [e]) t b (log ++ [e]).length := by
    intro t b' hcur'
    rcases current_concat_length.mp hcur' with ⟨-, hbegin, -⟩ | ⟨hcur', -, hne⟩
    · rw [hop] at hbegin
      cases hbegin
    · exact hne (by rw [hop, (hcur.unique hcur').2])
  rw [hstep]
  refine ⟨?_, fun t ↦ ?_, fun t b hcur' ↦ absurd hcur' (hnone t b), h.pending_sorted, fun i ↦ ?_,
    ?_⟩
  · -- a transaction closed before ends before the last entry
    have hnew : (b, log.length) ∉ closed log := fun hmem ↦ by
      obtain ⟨t, hclose⟩ := mem_closed.mp hmem
      exact absurd (lt_of_mark hclose.1) (lt_irrefl _)
    rw [closed_concat_of_current hop hcur, Finset.card_insert_of_notMem hnew]
    exact congrArg (· + 1) h.count
  · simp only [hnone]
    simp
  · rw [List.mem_append, h.applied, h.pending e.seq b hcur, replayed_concat]
    refine or_congr_right ⟨fun hi ↦ ⟨hop, b, hcur, hi⟩, ?_⟩
    rintro ⟨-, b', hcur', hi⟩
    rw [(hcur.unique hcur').1]
    exact hi
  · refine List.pairwise_append.mpr ⟨h.applied_sorted, h.pending_sorted, fun i hi j hj ↦ ?_⟩
    obtain ⟨⟨t, b', c, hclose, -, hic⟩, -⟩ := (h.applied i).mp hi
    have hcb := hcur.le_of_closes hclose (lt_of_mark hclose.1)
    exact hic.trans (hcb.trans_le ((h.pending e.seq b hcur j).mp hj).1)

theorem step_stale (h : r.Reads log) (hop : e.op = .commit) (ht : r.currentTxn ≠ some e.seq) :
    (r.step log.length e).Reads (log ++ [e]) := by
  have hstep : r.step log.length e = r := by
    rw [step, hop]
    exact if_neg ht
  have hne : ∀ b, ¬Current log e.seq b log.length := fun b hcur ↦
    ht ((h.current e.seq).mpr ⟨b, hcur⟩)
  have hcurrent : ∀ t b,
      Current (log ++ [e]) t b (log ++ [e]).length ↔ Current log t b log.length := by
    intro t b
    rw [current_concat_length]
    constructor
    · rintro (⟨-, hbegin, -⟩ | ⟨hcur, -, -⟩)
      · rw [hop] at hbegin
        cases hbegin
      · exact hcur
    · intro hcur
      refine .inr ⟨hcur, by simp [hop], fun hm ↦ ?_⟩
      obtain ⟨-, rfl⟩ := Prod.mk.injEq _ _ _ _ ▸ hm
      exact hne b hcur
  obtain ⟨hcount, happlied⟩ := h.of_not_current fun _ ↦ hne
  rw [hstep]
  refine ⟨hcount, fun t ↦ ?_, fun t b hcur i ↦ ?_, h.pending_sorted, happlied, h.applied_sorted⟩
  · simp only [hcurrent]
    exact h.current t
  · rw [h.pending t b ((hcurrent t b).mp hcur), applicable_concat,
      or_iff_left fun hc ↦ hc.2 hop]

theorem step (h : r.Reads log) (e : JournalEntry) :
    (r.step log.length e).Reads (log ++ [e]) := by
  by_cases hbegin : e.op = .begin
  · exact h.step_begin hbegin
  · by_cases hcommit : e.op = .commit
    · by_cases ht : r.currentTxn = some e.seq
      · exact h.step_close hcommit ht
      · exact h.step_stale hcommit ht
    · exact h.step_operation hbegin hcommit

end Replay.Reads

/-- **What replay does with any log.** -/
theorem replayLoop_reads (log : List JournalEntry) : (replayLoop log).Reads log := by
  induction log using List.reverseRecOn with
  | nil => exact .start
  | append_singleton log e ih =>
    rw [replayLoop_concat]
    exact ih.step e

end Zeroxos
