import Zeroxos.Fs.JournalReplay

/-!
# Interleaved transactions

`begin` hands out numbers and every other call takes one, so callers may keep several transactions
open at once. `replay` does not follow them: it keeps one current transaction, drops it at the next
`Begin`, and holds every operation it reads while one is current, whatever number it carries.

## The results

* A committed transaction is lost when another one begins before its `Commit`. Replay is durable
  exactly when that happens to none (`durable_iff`).
* An operation of a transaction that is never committed is applied when it is logged while another
  one is current and that one is committed. Replay is atomic exactly when that happens to none
  (`atomic_iff`).

## Contracts

Durability is about callers that use the numbers they were given and commit a transaction once
(`Interleaved`), of which `Numbered` is the invariant. Atomicity needs nothing: its condition is
exact for every list of calls.
-/

namespace Zeroxos

variable {log : List JournalEntry} {j : Journal} {call : JournalCall} {op : JournalOp}
  {b c i k t : ℕ} {m : JournalOp × ℕ}

/-- The transaction numbers an operation is logged under. -/
def numbersOf (op : JournalOp) (log : List JournalEntry) : Finset ℕ :=
  ((log.filter fun e ↦ e.op = op).map JournalEntry.seq).toFinset

/-- The transactions begun. -/
def begun (log : List JournalEntry) : Finset ℕ := numbersOf .begin log

/-- The transactions committed. -/
def committed (log : List JournalEntry) : Finset ℕ := numbersOf .commit log

theorem mem_numbersOf : t ∈ numbersOf op log ↔ ∃ k, mark log k = some (op, t) := by
  simp only [numbersOf, List.mem_toFinset, List.mem_map, List.mem_filter, decide_eq_true_eq, mark,
    Option.map_eq_some_iff, Prod.mk.injEq]
  constructor
  · rintro ⟨e, ⟨he, hop⟩, ht⟩
    obtain ⟨k, hk⟩ := List.mem_iff_getElem?.mp he
    exact ⟨k, e, hk, hop, ht⟩
  · rintro ⟨k, e, hk, hop, ht⟩
    exact ⟨e, ⟨List.mem_iff_getElem?.mpr ⟨k, hk⟩, hop⟩, ht⟩

theorem mem_committed : t ∈ committed log ↔ ∃ c, mark log c = some (.commit, t) := mem_numbersOf

theorem mem_begun : t ∈ begun log ↔ ∃ b, mark log b = some (.begin, t) := mem_numbersOf

namespace Journal

/-- Operations and one `Commit` are logged under numbers that `begin` handed out. -/
def Interleaved (j : Journal) : JournalCall → Prop
  | .begin => True
  | .append txn op _ _ => txn ∈ begun j.entries ∧ op ≠ .begin ∧ op ≠ .commit
  | .commit txn => txn ∈ begun j.entries ∧ txn ∉ committed j.entries

/-- Replay counts every committed transaction, and applies what was logged under its number before
the `Commit` exactly once. -/
structure Durable (j : Journal) : Prop where
  count : j.replay = (committed j.entries).card
  applied : ∀ t c, mark j.entries c = some (.commit, t) →
    ∀ i < c, ∀ op, mark j.entries i = some (op, t) → (replayLoop j.entries).applied.count i = 1

/-- No transaction begins between the `Begin` and the `Commit` of a committed one. -/
def Uninterrupted (log : List JournalEntry) : Prop :=
  ∀ t b c, mark log b = some (.begin, t) → mark log c = some (.commit, t) →
    ∀ k, b < k → k < c → ∀ t', mark log k ≠ some (.begin, t')

/-- What the contract keeps of the numbers in the log. -/
structure Numbered (j : Journal) : Prop where
  fresh : ∀ k m, mark j.entries k = some m → m.2 < j.nextSeq
  begun : ∀ k m, mark j.entries k = some m → ∃ b ≤ k, mark j.entries b = some (.begin, m.2)
  begin_once : ∀ t b b', mark j.entries b = some (.begin, t) →
    mark j.entries b' = some (.begin, t) → b = b'
  commit_once : ∀ t c c', mark j.entries c = some (.commit, t) →
    mark j.entries c' = some (.commit, t) → c = c'

theorem numbered_new : new.Numbered := by
  refine ⟨?_, ?_, ?_, ?_⟩ <;> simp [new, mark]

theorem entry_cases (h : Interleaved j call) :
    ((call.entry j).op = .begin ∧ (call.entry j).seq = j.nextSeq ∧
        (j.next call).nextSeq = j.nextSeq + 1) ∨
      ((call.entry j).op ≠ .begin ∧ (call.entry j).seq ∈ Zeroxos.begun j.entries ∧
        ((call.entry j).op = .commit → (call.entry j).seq ∉ committed j.entries) ∧
        (j.next call).nextSeq = j.nextSeq) := by
  cases call with
  | begin => exact .inl ⟨rfl, rfl, rfl⟩
  | append txn op target data => exact .inr ⟨h.2.1, h.1, fun hop ↦ absurd hop h.2.2, rfl⟩
  | commit txn => exact .inr ⟨by simp [JournalCall.entry], h.1, fun _ ↦ h.2, rfl⟩

theorem mark_next_of_mark (h : mark j.entries k = some m) (call : JournalCall) :
    mark (j.next call).entries k = some m := by
  rw [entries_next, mark_concat_of_lt _ (lt_of_mark h), h]

theorem mark_next_eq_some (h : mark (j.next call).entries k = some m) :
    (k = j.entries.length ∧ m = ((call.entry j).op, (call.entry j).seq)) ∨
      mark j.entries k = some m := by
  rw [entries_next] at h
  exact mark_concat_eq_some h

/-- An operation that was not logged under a number is logged there at most once by a call. -/
theorem once_next (hold : ∀ c c', mark j.entries c = some (op, t) →
      mark j.entries c' = some (op, t) → c = c')
    (hnew : (call.entry j).op = op → (call.entry j).seq = t → t ∉ numbersOf op j.entries)
    (hc : mark (j.next call).entries b = some (op, t))
    (hc' : mark (j.next call).entries c = some (op, t)) : b = c := by
  rcases mark_next_eq_some hc with ⟨rfl, hm⟩ | hc <;>
    rcases mark_next_eq_some hc' with ⟨rfl, hm'⟩ | hc'
  · rfl
  · rw [Prod.mk.injEq] at hm
    exact absurd (mem_numbersOf.mpr ⟨_, hc'⟩) (hnew hm.1.symm hm.2.symm)
  · rw [Prod.mk.injEq] at hm'
    exact absurd (mem_numbersOf.mpr ⟨_, hc⟩) (hnew hm'.1.symm hm'.2.symm)
  · exact hold _ _ hc hc'

theorem Numbered.next (h : j.Numbered) (hcall : Interleaved j call) :
    (j.next call).Numbered := by
  have hcases := entry_cases hcall
  refine ⟨fun k m hm ↦ ?_, fun k m hm ↦ ?_, fun t b b' ↦ once_next (h.begin_once t) ?_,
    fun t c c' ↦ once_next (h.commit_once t) ?_⟩
  · rcases mark_next_eq_some hm with ⟨-, rfl⟩ | hm
    · rcases hcases with ⟨-, hseq, hnext⟩ | ⟨-, hseq, -, hnext⟩
      · rw [hseq, hnext]
        exact Nat.lt_succ_self _
      · obtain ⟨b, hb⟩ := mem_begun.mp hseq
        rw [hnext]
        exact h.fresh b (.begin, _) hb
    · have hlt := h.fresh k m hm
      rcases hcases with ⟨-, -, hnext⟩ | ⟨-, -, -, hnext⟩
      · rw [hnext]
        exact hlt.trans (Nat.lt_succ_self _)
      · rw [hnext]
        exact hlt
  · rcases mark_next_eq_some hm with ⟨rfl, rfl⟩ | hold
    · rcases hcases with ⟨hop, -, -⟩ | ⟨-, hseq, -, -⟩
      · refine ⟨_, le_rfl, ?_⟩
        rw [hm, hop]
      · obtain ⟨b, hb⟩ := mem_begun.mp hseq
        exact ⟨b, (lt_of_mark hb).le, mark_next_of_mark hb call⟩
    · obtain ⟨b, hle, hb⟩ := h.begun k m hold
      exact ⟨b, hle, mark_next_of_mark hb call⟩
  · intro hop hseq hmem
    rcases hcases with ⟨-, hnext, -⟩ | ⟨hne, -, -, -⟩
    · obtain ⟨b, hb⟩ := mem_numbersOf.mp hmem
      have hlt := h.fresh b _ hb
      rw [← hseq, hnext] at hlt
      exact absurd hlt (lt_irrefl _)
    · exact hne hop
  · intro hop hseq hmem
    rcases hcases with ⟨hbegin, -, -⟩ | ⟨-, -, honce, -⟩
    · rw [hbegin] at hop
      cases hop
    · rw [← hseq] at hmem
      exact honce hop hmem

theorem numbered_of_reachable (hj : (journalSystem Interleaved).Reachable j) : j.Numbered :=
  hj.invariant (fun _ hs ↦ hs ▸ numbered_new) fun _ _ _ _ hnum hstep ↦
    Option.some_inj.mp hstep.2 ▸ hnum.next hstep.1

/-- **Counting.** Each transaction being committed once, the count of replay is right exactly when
every committed transaction is closed. -/
theorem Numbered.count_eq_iff (h : j.Numbered) :
    j.replay = (committed j.entries).card ↔
      ∀ t ∈ committed j.entries, ∃ p ∈ closed j.entries, Closes j.entries t p.1 p.2 := by
  -- a closed transaction is told by the number of its `Commit`
  have hcard : (closed j.entries).card = ((committed j.entries).filter fun t ↦
      ∃ p ∈ closed j.entries, Closes j.entries t p.1 p.2).card := by
    have hnumber : ∀ (p : ℕ × ℕ) t, Closes j.entries t p.1 p.2 →
        ((mark j.entries p.2).map Prod.snd).getD 0 = t := fun p t hp ↦ by
      rw [hp.1, Option.map_some, Option.getD_some]
    refine Finset.card_nbij (fun p ↦ ((mark j.entries p.2).map Prod.snd).getD 0) ?_ ?_ ?_
    · intro p hp
      obtain ⟨t, hclose⟩ := mem_closed.mp hp
      simp only [Finset.coe_filter, Set.mem_ofPred_eq, hnumber p t hclose]
      exact ⟨mem_committed.mpr ⟨_, hclose.1⟩, p, hp, hclose⟩
    · intro p hp q hq hpq
      obtain ⟨t, hclose⟩ := mem_closed.mp hp
      obtain ⟨u, hclose'⟩ := mem_closed.mp hq
      dsimp only at hpq
      rw [hnumber p t hclose, hnumber q u hclose'] at hpq
      subst hpq
      have hsame := h.commit_once t _ _ hclose.1 hclose'.1
      refine Prod.ext ?_ hsame
      rw [← hsame] at hclose'
      exact (hclose.2.unique hclose'.2).1
    · intro t ht
      obtain ⟨-, p, hp, hclose⟩ := Finset.mem_filter.mp (Finset.mem_coe.mp ht)
      exact ⟨p, hp, hnumber p t hclose⟩
  rw [replay, (replayLoop_reads j.entries).count, hcard, Finset.card_filter_eq_iff]

/-- A transaction that no other one interrupts is closed by its `Commit`. -/
theorem Numbered.closes (h : j.Numbered) (hun : Uninterrupted j.entries)
    (hb : mark j.entries b = some (.begin, t)) (hc : mark j.entries c = some (.commit, t)) :
    Closes j.entries t b c := by
  obtain ⟨b', hle, hb'⟩ := h.begun c _ hc
  obtain rfl := h.begin_once t _ _ hb hb'
  have hne : b ≠ c := by
    rintro rfl
    rw [hb] at hc
    cases hc
  refine ⟨hc, hb, lt_of_le_of_ne hle hne, fun k hk hbk m hm ↦ ⟨?_, ?_⟩⟩
  · intro hop
    exact hun t b c hb hc k hbk hk m.2 (by rw [← hop]; exact hm)
  · rintro rfl
    exact hk.ne (h.commit_once t _ _ hm hc)

theorem Numbered.durable_iff_uninterrupted (h : j.Numbered) :
    j.Durable ↔ Uninterrupted j.entries := by
  constructor
  · intro hdur t b c hb hc k hbk hkc t' hk
    obtain ⟨p, -, hclose⟩ := h.count_eq_iff.mp hdur.count t (mem_committed.mpr ⟨c, hc⟩)
    rw [h.commit_once t _ _ hc hclose.1] at hkc
    rw [h.begin_once t _ _ hb hclose.2.1] at hbk
    exact (hclose.2.2.2 k hkc hbk _ hk).1 rfl
  · intro hun
    have hclosed : ∀ t c, mark j.entries c = some (.commit, t) →
        ∃ b, mark j.entries b = some (.begin, t) ∧ Closes j.entries t b c := by
      intro t c hc
      obtain ⟨b, -, hb⟩ := h.begun c _ hc
      exact ⟨b, hb, h.closes hun hb hc⟩
    refine ⟨h.count_eq_iff.mpr fun t ht ↦ ?_, fun t c hc i hi op hop ↦ ?_⟩
    · obtain ⟨c, hc⟩ := mem_committed.mp ht
      obtain ⟨b, -, hclose⟩ := hclosed t c hc
      exact ⟨(b, c), mem_closed.mpr ⟨t, hclose⟩, hclose⟩
    · obtain ⟨b, hb, hclose⟩ := hclosed t c hc
      obtain ⟨b', hle, hb'⟩ := h.begun i _ hop
      obtain rfl := h.begin_once t _ _ hb hb'
      have hreads := replayLoop_reads j.entries
      refine List.count_eq_one_of_mem (hreads.applied_sorted.imp fun hlt ↦ hlt.ne) ?_
      refine (hreads.applied i).mpr ⟨⟨t, b, c, hclose, hle, hi⟩, _, hop, ?_⟩
      rintro rfl
      exact hi.ne (h.commit_once t _ _ hop hc)

instance (j : Journal) : (call : JournalCall) → Decidable ((machine Interleaved).Legal j call)
  | .begin => inferInstanceAs (Decidable True)
  | .append txn op _ _ =>
    inferInstanceAs (Decidable (txn ∈ Zeroxos.begun j.entries ∧ op ≠ .begin ∧ op ≠ .commit))
  | .commit txn =>
    inferInstanceAs (Decidable (txn ∈ Zeroxos.begun j.entries ∧ txn ∉ committed j.entries))

end Journal

/-- **Durability.** However the transactions are interleaved, replay applies every committed one
exactly when none of them saw another begin before its `Commit`. -/
theorem durable_iff {j : Journal} (hj : (journalSystem Journal.Interleaved).Reachable j) :
    j.Durable ↔ Journal.Uninterrupted j.entries :=
  (Journal.numbered_of_reachable hj).durable_iff_uninterrupted

/-- Two transactions write by turns, and the one that began last is committed. -/
def Journal.overlapping : Journal :=
  ⟨[⟨1, .begin, 0, []⟩, ⟨2, .begin, 0, []⟩, ⟨1, .writeBlock, 7, [5]⟩, ⟨2, .writeBlock, 8, [6]⟩,
    ⟨2, .commit, 0, []⟩], 3, 2⟩

/-- It is replayed, though the other one is still open. -/
theorem durable_overlapping :
    begun Journal.overlapping.entries = {1, 2} ∧ committed Journal.overlapping.entries = {2}
      ∧ Journal.overlapping.Durable := by
  have hrun : (Journal.machine Journal.Interleaved).run
      [.begin, .begin, .append 1 .writeBlock 7 [5], .append 2 .writeBlock 8 [6], .commit 2]
      Journal.new = some Journal.overlapping := by decide
  have hbegin : ∀ k t, mark Journal.overlapping.entries k = some (.begin, t) →
      k + 1 = t ∧ k ≤ 1 := by
    intro k t hk
    rcases k with _ | _ | _ | _ | _ | k <;> simp [mark, Journal.overlapping] at hk ⊢ <;> exact hk
  have hcommit : ∀ c t, mark Journal.overlapping.entries c = some (.commit, t) → t = 2 := by
    intro c t hc
    rcases c with _ | _ | _ | _ | _ | c <;> simp [mark, Journal.overlapping] at hc
    exact hc.symm
  refine ⟨by decide, by decide, (durable_iff (Machine.reachable_run (.init rfl) hrun)).mpr ?_⟩
  intro t b c hb hc k hbk _ t' hk
  have hnumber := (hbegin b t hb).1
  have hplace := (hbegin k t' hk).2
  rw [hcommit c t hc] at hnumber
  omega

/-- **A committed transaction is lost** when a second one begins before its `Commit`. -/
theorem interrupted_lost :
    ¬∀ j, (journalSystem Journal.Interleaved).Reachable j → j.Durable := by
  intro h
  have hrun : (Journal.machine Journal.Interleaved).run
      [.begin, .begin, .commit 1, .commit 2] Journal.new = some ⟨_, _, _⟩ := rfl
  exact absurd (h _ (Machine.reachable_run (.init rfl) hrun)).count (by decide)

namespace Journal

/-- The journal after the calls, whatever they are. -/
def history (calls : List JournalCall) : Journal := calls.foldl next new

/-- What replay applies was logged under the number of a committed transaction. -/
def Atomic (log : List JournalEntry) : Prop :=
  ∀ i ∈ (replayLoop log).applied, ∃ op, ∃ t ∈ committed log, mark log i = some (op, t)

/-- What is logged from the `Begin` of a transaction to its `Commit`, no other beginning in between,
is logged under the numbers of committed transactions. -/
def Unmixed (log : List JournalEntry) : Prop :=
  ∀ t b c, Closes log t b c → ∀ i, b < i → i < c →
    ∀ op u, mark log i = some (op, u) → u ∈ committed log

end Journal

/-- **Atomicity.** Replay applies nothing of a transaction that was never committed exactly when no
entry of one lies in the span of a transaction that replay closes. -/
theorem atomic_iff (calls : List JournalCall) :
    Journal.Atomic (Journal.history calls).entries ↔
      Journal.Unmixed (Journal.history calls).entries := by
  have hreads := replayLoop_reads (Journal.history calls).entries
  constructor
  · intro hatomic t b c hclose i hbi hic op u hm
    by_cases hop : op = .commit
    · exact mem_committed.mpr ⟨i, by rw [hm, hop]⟩
    · obtain ⟨op', u', hu, hm'⟩ :=
        hatomic i ((hreads.applied i).mpr ⟨⟨t, b, c, hclose, hbi.le, hic⟩, _, hm, hop⟩)
      rw [hm, Option.some_inj, Prod.mk.injEq] at hm'
      rw [hm'.2]
      exact hu
  · intro hunmixed i hi
    obtain ⟨⟨t, b, c, hclose, hbi, hic⟩, m, hm, -⟩ := (hreads.applied i).mp hi
    rcases hbi.lt_or_eq with hlt | rfl
    · exact ⟨m.1, m.2, hunmixed t b c hclose i hlt hic m.1 m.2 hm, hm⟩
    · exact ⟨.begin, t, mem_committed.mpr ⟨c, hclose.1⟩, hclose.2.1⟩

/-- **An uncommitted operation is applied** with the transaction that is current where it is logged.
-/
theorem uncommitted_applied : ¬∀ calls, Journal.Atomic (Journal.history calls).entries := by
  intro h
  obtain ⟨op, t, ht, hm⟩ :=
    h [.begin, .begin, .append 1 .writeBlock 7 [5], .commit 2] 2 (by decide)
  obtain ⟨-, rfl⟩ := Prod.mk.injEq _ _ _ _ ▸ Option.some_inj.mp hm
  exact absurd ht (by decide)

end Zeroxos
