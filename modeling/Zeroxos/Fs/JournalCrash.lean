import Mathlib.Data.Set.Card
import Zeroxos.Fs.JournalReplay

/-!
# Crash consistency of the journal in serial use

In serial use every call goes to the transaction begun last. Then every entry of the log belongs to
one transaction, the one begun by the last `Begin` up to it, and this holds of every prefix, that is
at every crash point. Transactions are told apart by the position of their `Begin`, so nothing here
depends on what `append` is used for.

## The result

On every prefix, replay applies in order and once each the entries of the transactions whose
`Commit` lies in the prefix, up to that `Commit`, counts these transactions and applies nothing of
the others; and on a longer prefix it only adds to this (`crash_consistency`).

## Prefixes

A prefix of a serial log is the log of a shorter history, so one crash point is like another. What
is replayed of a longer prefix extends what is replayed of a shorter one because the loop only ever
adds to what it applied.
-/

namespace Zeroxos

variable {log : List JournalEntry} {e : JournalEntry} {j : Journal} {call : JournalCall}
  {b b' c c' i k n t : ℕ} {m : JournalOp × ℕ}

/-- The entry at `i` belongs to the transaction begun at `b`: it carries its number, and no other
transaction begins up to it. -/
def Belongs (log : List JournalEntry) (b i : ℕ) : Prop :=
  ∃ t op, mark log b = some (.begin, t) ∧ mark log i = some (op, t) ∧ b ≤ i ∧
    ∀ k, b < k → k ≤ i → ∀ u, mark log k ≠ some (.begin, u)

/-- The `Commit` of the transaction begun at `b` is the first that belongs to it. -/
def CommittedAt (log : List JournalEntry) (b c : ℕ) : Prop :=
  Belongs log b c ∧ ¬Applicable log c ∧ ∀ k < c, Belongs log b k → Applicable log k

/-- What is expected of replay on a log: it applies what belongs to the committed transactions. -/
structure Recovers (log : List JournalEntry) : Prop where
  ordered : (replayLoop log).applied.Pairwise (· < ·)
  applied : ∀ i, i ∈ (replayLoop log).applied ↔
    ∃ b c, Belongs log b i ∧ CommittedAt log b c ∧ i < c
  dropped : ∀ b i, Belongs log b i → (∀ c, ¬CommittedAt log b c) → i ∉ (replayLoop log).applied
  count : (replayLoop log).count = {b | ∃ c, CommittedAt log b c}.ncard

/-! ## Transactions of a log -/

theorem Belongs.unique (h : Belongs log b i) (h' : Belongs log b' i) : b = b' := by
  obtain ⟨t, -, hb, -, hle, hclear⟩ := h
  obtain ⟨t', -, hb', -, hle', hclear'⟩ := h'
  rcases lt_trichotomy b b' with hlt | rfl | hgt
  · exact absurd hb' (hclear b' hlt hle' t')
  · rfl
  · exact absurd hb (hclear' b hgt hle t)

/-- What an entry belongs to is settled by the log up to it. -/
theorem Belongs.congr {log' : List JournalEntry} (h : Belongs log b i)
    (hmark : ∀ k ≤ i, mark log' k = mark log k) : Belongs log' b i := by
  obtain ⟨t, op, hb, hop, hle, hclear⟩ := h
  refine ⟨t, op, ?_, ?_, hle, fun k hbk hki ↦ ?_⟩
  · rw [hmark b hle, hb]
  · rw [hmark i le_rfl, hop]
  · rw [hmark k hki]
    exact hclear k hbk hki

theorem CommittedAt.unique (h : CommittedAt log b c) (h' : CommittedAt log b c') : c = c' := by
  obtain ⟨hbelongs, hcommit, hfirst⟩ := h
  obtain ⟨hbelongs', hcommit', hfirst'⟩ := h'
  rcases lt_trichotomy c c' with hlt | rfl | hgt
  · exact absurd (hfirst' c hlt hbelongs) hcommit
  · rfl
  · exact absurd (hfirst c' hgt hbelongs') hcommit'

theorem not_applicable_of_commit (h : mark log c = some (.commit, t)) : ¬Applicable log c := by
  rintro ⟨m, hm, hne⟩
  rw [h] at hm
  cases hm
  exact hne rfl

theorem committedAt_iff : CommittedAt log b c ↔ ∃ t, Closes log t b c := by
  constructor
  · rintro ⟨⟨t, op, hb, hc, hle, hclear⟩, hcommit, hfirst⟩
    have hop : op = .commit := by_contra fun hop ↦ hcommit ⟨_, hc, hop⟩
    subst hop
    have hne : b ≠ c := by
      rintro rfl
      rw [hb] at hc
      cases hc
    refine ⟨t, hc, hb, lt_of_le_of_ne hle hne, fun k hkc hbk m hm ↦ ⟨?_, ?_⟩⟩
    · intro hop
      exact hclear k hbk hkc.le m.2 (by rw [← hop]; exact hm)
    · rintro rfl
      refine not_applicable_of_commit hm (hfirst k hkc ⟨t, _, hb, hm, hbk.le, ?_⟩)
      exact fun l hbl hlk ↦ hclear l hbl (hlk.trans hkc.le)
  · rintro ⟨t, hc, hb, hbc, hclear⟩
    have hbegin : ∀ k, b < k → k ≤ c → ∀ u, mark log k ≠ some (.begin, u) := by
      intro k hbk hkc u hk
      rcases hkc.lt_or_eq with hlt | rfl
      · exact (hclear k hlt hbk _ hk).1 rfl
      · rw [hc] at hk
        cases hk
    refine ⟨⟨t, _, hb, hc, hbc.le, hbegin⟩, not_applicable_of_commit hc, ?_⟩
    rintro k hkc ⟨u, op, hb', hk, hbk, -⟩
    rw [hb, Option.some_inj, Prod.mk.injEq] at hb'
    obtain ⟨-, rfl⟩ := hb'
    refine ⟨_, hk, ?_⟩
    rintro rfl
    rcases hbk.lt_or_eq with hlt | rfl
    · exact (hclear k hkc hlt _ hk).2 rfl
    · rw [hb] at hk
      cases hk

/-- Where every entry belongs to a transaction, what is replayed belongs to a committed one. -/
theorem replayed_iff (hserial : ∀ i < log.length, ∃ b, Belongs log b i) :
    Replayed log i ↔ ∃ b c, Belongs log b i ∧ CommittedAt log b c ∧ i < c := by
  constructor
  · rintro ⟨⟨t, b, c, hclose, hbi, hic⟩, happ⟩
    obtain ⟨b', t', op, hb', hi, hle, hclear⟩ := hserial i happ.lt
    obtain ⟨-, hb, -, hspan⟩ := id hclose
    -- the last `Begin` up to `i` is the one that opened the span
    have hsame : b' = b := by
      rcases lt_trichotomy b' b with hlt | heq | hgt
      · exact absurd hb (hclear b hlt hbi t)
      · exact heq
      · exact absurd rfl (hspan b' (hle.trans_lt hic) hgt _ hb').1
    subst hsame
    exact ⟨b', c, ⟨t', op, hb', hi, hle, hclear⟩, committedAt_iff.mpr ⟨t, hclose⟩, hic⟩
  · rintro ⟨b, c, hbelongs, hcommit, hic⟩
    obtain ⟨t, hclose⟩ := committedAt_iff.mp hcommit
    obtain ⟨-, -, -, -, hle, -⟩ := id hbelongs
    exact ⟨⟨t, b, c, hclose, hle, hic⟩, hcommit.2.2 i hic hbelongs⟩

theorem card_closed : (closed log).card = {b | ∃ c, CommittedAt log b c}.ncard := by
  have himage : {b | ∃ c, CommittedAt log b c} = ↑((closed log).image Prod.fst) := by
    ext b
    simp [mem_closed, committedAt_iff]
  rw [himage, Set.ncard_coe_finset, Finset.card_image_of_injOn]
  intro p hp q hq hpq
  have hp' := committedAt_iff.mpr (mem_closed.mp hp)
  rw [hpq] at hp'
  exact Prod.ext hpq (hp'.unique (committedAt_iff.mpr (mem_closed.mp hq)))

/-- **Recovery** from a log whose entries each belong to a transaction. -/
theorem recovers_of_serial (hserial : ∀ i < log.length, ∃ b, Belongs log b i) : Recovers log := by
  have hreads := replayLoop_reads log
  have happlied : ∀ i, i ∈ (replayLoop log).applied ↔
      ∃ b c, Belongs log b i ∧ CommittedAt log b c ∧ i < c := fun i ↦
    (hreads.applied i).trans (replayed_iff hserial)
  refine ⟨hreads.applied_sorted, happlied, fun b i hbelongs hnone hi ↦ ?_, ?_⟩
  · obtain ⟨b', c, hbelongs', hcommit, -⟩ := (happlied i).mp hi
    rw [← hbelongs.unique hbelongs'] at hcommit
    exact hnone c hcommit
  · rw [hreads.count, card_closed]

/-! ## Prefixes -/

theorem mark_take (log : List JournalEntry) (n k : ℕ) :
    mark (log.take n) k = if k < n then mark log k else none := by
  rw [mark, mark, List.getElem?_take]
  split_ifs <;> rfl

theorem mark_take_of_lt (log : List JournalEntry) (hk : k < n) :
    mark (log.take n) k = mark log k := by
  rw [mark_take, if_pos hk]

theorem replayLoop_append (log l : List JournalEntry) :
    (replayLoop log).applied <+: (replayLoop (log ++ l)).applied ∧
      (replayLoop log).count ≤ (replayLoop (log ++ l)).count := by
  induction l using List.reverseRecOn with
  | nil => simp
  | append_singleton l e ih =>
    obtain ⟨happlied, hcount⟩ := ih
    have hstep : ∀ (r : Replay) i, r.applied <+: (r.step i e).applied ∧
        r.count ≤ (r.step i e).count := by
      intro r i
      rw [Replay.step]
      split
      · exact ⟨List.prefix_rfl, le_rfl⟩
      · split_ifs
        · exact ⟨List.prefix_append _ _, Nat.le_succ _⟩
        · exact ⟨List.prefix_rfl, le_rfl⟩
      · split_ifs
        · exact ⟨List.prefix_rfl, le_rfl⟩
        · exact ⟨List.prefix_rfl, le_rfl⟩
    rw [← List.append_assoc, replayLoop_concat]
    exact ⟨happlied.trans (hstep _ _).1, hcount.trans (hstep _ _).2⟩

/-! ## Serial use -/

/-- The number under which a transaction was begun last. -/
def latest (log : List JournalEntry) : Option ℕ :=
  (log.reverse.find? fun e ↦ e.op = .begin).map JournalEntry.seq

theorem latest_concat (log : List JournalEntry) (e : JournalEntry) :
    latest (log ++ [e]) = if e.op = .begin then some e.seq else latest log := by
  rw [latest, List.reverse_append, List.reverse_singleton, List.singleton_append, List.find?_cons]
  by_cases hop : e.op = .begin
  · simp [hop]
  · simp [hop, latest]

theorem exists_of_latest (h : latest log = some t) :
    ∃ b, mark log b = some (.begin, t) ∧ ∀ k, b < k → ∀ u, mark log k ≠ some (.begin, u) := by
  induction log using List.reverseRecOn with
  | nil => simp [latest] at h
  | append_singleton log e ih =>
    rw [latest_concat] at h
    split_ifs at h with hop
    · refine ⟨log.length, ?_, fun k hk u hm ↦ ?_⟩
      · rw [mark_concat_length, hop, Option.some_inj.mp h]
      · have hlt := lt_of_mark hm
        rw [List.length_append, List.length_singleton] at hlt
        exact absurd hk (Nat.lt_succ_iff.mp hlt).not_gt
    · obtain ⟨b, hb, hclear⟩ := ih h
      refine ⟨b, by rw [mark_concat_of_lt e (lt_of_mark hb), hb], fun k hk u hm ↦ ?_⟩
      rcases mark_concat_eq_some hm with ⟨-, hm⟩ | hm
      · rw [Prod.mk.injEq] at hm
        exact hop hm.1.symm
      · exact hclear k hk u hm

theorem exists_belongs_concat (h : e.op = .begin ∨ latest log = some e.seq) :
    ∃ b, Belongs (log ++ [e]) b log.length := by
  by_cases hop : e.op = .begin
  · have hm := mark_concat_length log e
    rw [hop] at hm
    exact ⟨log.length, e.seq, .begin, hm, hm, le_rfl, fun k hk hle ↦ absurd hk hle.not_gt⟩
  · obtain ⟨b, hb, hclear⟩ := exists_of_latest (h.resolve_left hop)
    refine ⟨b, e.seq, e.op, ?_, mark_concat_length log e, (lt_of_mark hb).le, fun k hk _ u hm ↦ ?_⟩
    · rw [mark_concat_of_lt e (lt_of_mark hb), hb]
    · rcases mark_concat_eq_some hm with ⟨-, hm⟩ | hm
      · rw [Prod.mk.injEq] at hm
        exact hop hm.1.symm
      · exact hclear k hk u hm

namespace Journal

/-- `append` and `commit` go to the transaction begun last. -/
def Serial (j : Journal) : JournalCall → Prop
  | .begin => True
  | .append txn _ _ _ => latest j.entries = some txn
  | .commit txn => latest j.entries = some txn

instance (j : Journal) : (call : JournalCall) → Decidable ((machine Serial).Legal j call)
  | .begin => inferInstanceAs (Decidable True)
  | .append txn _ _ _ => inferInstanceAs (Decidable (latest j.entries = some txn))
  | .commit txn => inferInstanceAs (Decidable (latest j.entries = some txn))

theorem Serial.entry (h : Serial j call) :
    (call.entry j).op = .begin ∨ latest j.entries = some (call.entry j).seq := by
  cases call with
  | begin => exact .inl rfl
  | append txn op target data => exact .inr h
  | commit txn => exact .inr h

theorem belongs_of_reachable (hj : (journalSystem Serial).Reachable j) :
    ∀ i < j.entries.length, ∃ b, Belongs j.entries b i := by
  refine hj.invariant (P := fun j ↦ ∀ i < j.entries.length, ∃ b, Belongs j.entries b i) ?_ ?_
  · rintro _ rfl i hi
    exact absurd hi (Nat.not_lt_zero i)
  · intro j call j' _ hinv hstep i hi
    rw [← Option.some_inj.mp hstep.2, entries_next] at hi ⊢
    rw [List.length_append, List.length_singleton] at hi
    rcases (Nat.lt_succ_iff.mp hi).lt_or_eq with hlt | rfl
    · obtain ⟨b, hb⟩ := hinv i hlt
      exact ⟨b, hb.congr fun k hk ↦ mark_concat_of_lt _ (hk.trans_lt hlt)⟩
    · exact exists_belongs_concat (Serial.entry hstep.1)

end Journal

/-- **Crash consistency.** At every crash point of a serial history, every entry belongs to a
transaction, replay recovers the committed ones, and a longer prefix extends what it did. -/
theorem crash_consistency {j : Journal} (hj : (journalSystem Journal.Serial).Reachable j) (n : ℕ) :
    (∀ i < (j.entries.take n).length, ∃ b, Belongs (j.entries.take n) b i) ∧
      Recovers (j.entries.take n) ∧
      ∀ m, n ≤ m → (replayLoop (j.entries.take n)).applied <+:
          (replayLoop (j.entries.take m)).applied ∧
        (replayLoop (j.entries.take n)).count ≤ (replayLoop (j.entries.take m)).count := by
  have hserial : ∀ i < (j.entries.take n).length, ∃ b, Belongs (j.entries.take n) b i := by
    intro i hi
    rw [List.length_take] at hi
    obtain ⟨b, hb⟩ := Journal.belongs_of_reachable hj i (hi.trans_le (min_le_right _ _))
    exact ⟨b, hb.congr fun k hk ↦
      mark_take_of_lt _ (hk.trans_lt (hi.trans_le (min_le_left _ _)))⟩
  refine ⟨hserial, recovers_of_serial hserial, fun m hnm ↦ ?_⟩
  obtain ⟨l, hl⟩ : j.entries.take n <+: j.entries.take m := List.take_prefix_take_left hnm
  rw [← hl]
  exact replayLoop_append _ _

/-- A journal whose first transaction was abandoned and whose second one is committed. -/
def Journal.abandoned : Journal :=
  ⟨[⟨1, .begin, 0, []⟩, ⟨1, .writeBlock, 7, [5]⟩, ⟨2, .begin, 0, []⟩, ⟨2, .freeBlock, 9, []⟩,
    ⟨2, .commit, 0, []⟩], 3, 2⟩

/-- It recovers from a crash before the `Commit` and from one after it. -/
theorem crash_consistency_abandoned :
    Recovers (Journal.abandoned.entries.take 4) ∧ Recovers (Journal.abandoned.entries.take 5) := by
  have hrun : (Journal.machine Journal.Serial).run
      [.begin, .append 1 .writeBlock 7 [5], .begin, .append 2 .freeBlock 9 [], .commit 2]
      Journal.new = some Journal.abandoned := rfl
  have hj : (journalSystem Journal.Serial).Reachable Journal.abandoned :=
    Machine.reachable_run (.init rfl) hrun
  exact ⟨(crash_consistency hj 4).2.1, (crash_consistency hj 5).2.1⟩

end Zeroxos
