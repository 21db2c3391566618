import Zeroxos.Fs.Checksum
import Zeroxos.Library.Transition

/-!
# The journal

The write-ahead log of zeroxfs: a vector of entries that only grows. `begin` hands out a transaction
number and logs a `Begin` entry, `append` and `commit` log an entry under whatever number they are
given, and `replay` reads the log once, holding one current transaction and the positions of the
entries read since its `Begin`.

Numbers are `u64` and count the `Begin` entries of a vector in memory, so the counter never wraps
and is a natural number here.

## Replay

The loop of `replay` walks `txn_entries` at a matching `Commit` and applies what it finds; applying
is not written yet. The model keeps the walk: `applied` collects, in order, every position the inner
loop visits, and is the only part of `Replay` that is no variable of the source.

## Runs

What calls may be made is a contract of the caller. Three are of interest: any calls at all, calls
that go to a transaction that is open, of which there may be several, and calls that go to the
transaction begun last.
-/

namespace Zeroxos

inductive JournalOp
  | begin | commit | createInode | unlinkInode | writeBlock | freeBlock | xattrSet | snapshotCreate
deriving DecidableEq, Repr

structure JournalEntry where
  seq : ℕ
  op : JournalOp
  target : ℕ
  data : Bytes
deriving DecidableEq, Repr

structure Journal where
  entries : List JournalEntry
  nextSeq : ℕ
  committedSeq : ℕ
deriving DecidableEq, Repr

/-- The variables of the loop of `Journal::replay`, and the positions walked. -/
structure Replay where
  count : ℕ
  currentTxn : Option ℕ
  txnEntries : List ℕ
  applied : List ℕ
deriving DecidableEq, Repr

namespace Replay

/-- Before the first entry. -/
def start : Replay := ⟨0, none, [], []⟩

/-- One round of the loop, on the entry `e` at position `i`. -/
def step (r : Replay) (i : ℕ) (e : JournalEntry) : Replay :=
  match e.op with
  | .begin => { r with currentTxn := some e.seq, txnEntries := [i] }
  | .commit =>
    if r.currentTxn = some e.seq then
      { r with count := r.count + 1, currentTxn := none, applied := r.applied ++ r.txnEntries }
    else r
  | _ => if r.currentTxn.isSome then { r with txnEntries := r.txnEntries ++ [i] } else r

end Replay

/-- The loop of `Journal::replay`. -/
def replayLoop (log : List JournalEntry) : Replay :=
  log.zipIdx.foldl (fun r p ↦ r.step p.2 p.1) .start

theorem replayLoop_concat (log : List JournalEntry) (e : JournalEntry) :
    replayLoop (log ++ [e]) = (replayLoop log).step log.length e := by
  simp [replayLoop, List.zipIdx_append]

namespace Journal

def new : Journal := ⟨[], 1, 0⟩

def begin (j : Journal) : ℕ × Journal :=
  (j.nextSeq, { j with
    nextSeq := j.nextSeq + 1
    entries := j.entries ++ [⟨j.nextSeq, .begin, 0, []⟩] })

def append (txn : ℕ) (op : JournalOp) (target : ℕ) (data : Bytes) (j : Journal) : Journal :=
  { j with entries := j.entries ++ [⟨txn, op, target, data⟩] }

def commit (txn : ℕ) (j : Journal) : Journal :=
  { j with entries := j.entries ++ [⟨txn, .commit, 0, []⟩], committedSeq := txn }

/-- `Journal::replay`, what it returns. -/
def replay (j : Journal) : ℕ := (replayLoop j.entries).count

end Journal

/-- A call of the journal. -/
inductive JournalCall
  | begin
  | append (txn : ℕ) (op : JournalOp) (target : ℕ) (data : Bytes)
  | commit (txn : ℕ)

namespace JournalCall

/-- The entry a call logs. -/
def entry (j : Journal) : JournalCall → JournalEntry
  | .begin => ⟨j.nextSeq, .begin, 0, []⟩
  | .append txn op target data => ⟨txn, op, target, data⟩
  | .commit txn => ⟨txn, .commit, 0, []⟩

end JournalCall

namespace Journal

/-- One call. -/
def next (j : Journal) : JournalCall → Journal
  | .begin => j.begin.2
  | .append txn op target data => j.append txn op target data
  | .commit txn => j.commit txn

/-- **Every call logs one entry.** -/
theorem entries_next (j : Journal) (call : JournalCall) :
    (j.next call).entries = j.entries ++ [call.entry j] := by
  cases call <;> rfl

/-- The journal, with a contract on every call. -/
def machine (contract : Journal → JournalCall → Prop) : Machine Journal JournalCall where
  init j := j = new
  Legal := contract
  next j call := some (j.next call)

end Journal

/-- The runs of the journal in which every call meets `contract`. -/
def journalSystem (contract : Journal → JournalCall → Prop) :
    TransitionSystem Journal JournalCall :=
  (Journal.machine contract).system

end Zeroxos
