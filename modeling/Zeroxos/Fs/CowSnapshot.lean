import Zeroxos.Fs.Cow
import Zeroxos.Library.Transition

/-!
# Snapshots of the copy-on-write tree

A snapshot is the id of the root at the time, and it is worth what the data under that id is later.
The system keeps the snapshots taken, each with the data it stood for; the tree is *isolated* when
every snapshot still reads what it did.

## What goes wrong

`write` gives the new data to the copy and lowers the count of the original, but leaves `root` where
it is. So the live tree and its snapshots keep sharing the original: the write is lost to the live
tree, and since the count no longer counts the live tree, the next write finds it at one and goes
through to the snapshot.

## The conditions

Both properties hold under a condition on the node addressed that is exact. A call keeps the
snapshots isolated when it writes no other data to a node that a snapshot has and that is counted
once (`snapshot_isolation_iff`), and a write to the root is read there afterwards when the root is
counted once, or has that data already (`root_write_iff`).
-/

namespace Zeroxos

/-- The data under an id. -/
def CowTree.dataOf (t : CowTree) (id : ℕ) : Option Bytes := (t.nodeOf id).map CowNode.data

/-- A call of the tree. -/
inductive CowCall
  | snapshot
  | write (id : ℕ) (data : Bytes)

/-- The tree, and the snapshots taken of it with the data they stood for. -/
structure CowSys where
  tree : CowTree
  taken : List (ℕ × Option Bytes)

namespace CowSys

/-- Before the first call. -/
def new : CowSys := ⟨CowTree.new, []⟩

/-- One call. -/
def next (s : CowSys) : CowCall → CowSys
  | .snapshot =>
    ⟨s.tree.snapshot.2, (s.tree.snapshot.1, s.tree.dataOf s.tree.snapshot.1) :: s.taken⟩
  | .write id data => { s with tree := s.tree.write id data }

/-- The tree, with a condition on every call. -/
def machine (guard : CowSys → CowCall → Prop) : Machine CowSys CowCall where
  init s := s = new
  Legal := guard
  next s call := some (s.next call)

/-- Writes are addressed to nodes that exist. -/
def Addressed (s : CowSys) : CowCall → Prop
  | .snapshot => True
  | .write id _ => (s.tree.nodeOf id).isSome

instance (s : CowSys) : (call : CowCall) → Decidable ((machine Addressed).Legal s call)
  | .snapshot => inferInstanceAs (Decidable True)
  | .write id _ => inferInstanceAs (Decidable (s.tree.nodeOf id).isSome)

/-- A write to a node that a snapshot holds, when that node is not shared, writes what is there. -/
def Keeps (s : CowSys) : CowCall → Prop
  | .snapshot => True
  | .write id data => ∀ e ∈ s.taken, e.1 = id → ∀ n, s.tree.nodeOf id = some n →
    n.refcount ≤ 1 → n.data = data

/-- Every snapshot reads what it did when it was taken. -/
def Isolated (s : CowSys) : Prop := ∀ e ∈ s.taken, s.tree.dataOf e.1 = e.2

end CowSys

/-- The runs of the tree in which every call meets `guard`. -/
def cowSystem (guard : CowSys → CowCall → Prop) : TransitionSystem CowSys CowCall :=
  (CowSys.machine guard).system

namespace CowSys

variable {s : CowSys} {n : CowNode} {b id : ℕ} {d : Bytes}

/-- The root and every snapshot name a node. -/
structure Inv (s : CowSys) : Prop where
  root : ∃ n, s.tree.nodeOf s.tree.root = some n
  taken : ∀ e ∈ s.taken, ∃ n, s.tree.nodeOf e.1 = some n

theorem inv_new : new.Inv := ⟨⟨_, rfl⟩, fun _ h ↦ absurd h List.not_mem_nil⟩

theorem nodeOf_next (h : s.tree.nodeOf b = some n) (call : CowCall) :
    ∃ n', (s.next call).tree.nodeOf b = some n' := by
  cases call with
  | snapshot =>
    obtain ⟨n', hn', -⟩ := CowTree.nodeOf_snapshot h
    exact ⟨n', hn'⟩
  | write id d =>
    obtain ⟨n', hn', -⟩ := CowTree.nodeOf_write h id d
    exact ⟨n', hn'⟩

theorem root_next (s : CowSys) (call : CowCall) : (s.next call).tree.root = s.tree.root := by
  cases call with
  | snapshot => rfl
  | write id d => exact CowTree.write_root id d s.tree

theorem Inv.next (h : s.Inv) (call : CowCall) : (s.next call).Inv := by
  obtain ⟨n, hn⟩ := h.root
  have htaken : ∀ e ∈ s.taken, ∃ n, (s.next call).tree.nodeOf e.1 = some n := fun e he ↦ by
    obtain ⟨n, hn⟩ := h.taken e he
    exact nodeOf_next hn call
  refine ⟨?_, ?_⟩
  · rw [root_next]
    exact nodeOf_next hn call
  · cases call with
    | snapshot =>
      intro e he
      rcases List.mem_cons.mp he with rfl | he
      · exact nodeOf_next hn .snapshot
      · exact htaken e he
    | write id d => exact htaken

theorem inv_of_reachable {guard : CowSys → CowCall → Prop} (h : (cowSystem guard).Reachable s) :
    s.Inv :=
  h.invariant (fun _ hs ↦ hs ▸ inv_new) fun _ call _ _ hinv hstep ↦
    Option.some_inj.mp hstep.2 ▸ hinv.next call

theorem dataOf_snapshot (h : s.tree.nodeOf b = some n) :
    (s.next .snapshot).tree.dataOf b = s.tree.dataOf b := by
  obtain ⟨n', hn', hdata⟩ := CowTree.nodeOf_snapshot h
  have hnext : (s.next .snapshot).tree.nodeOf b = some n' := hn'
  rw [CowTree.dataOf, CowTree.dataOf, hnext, h, Option.map_some, Option.map_some, hdata]

theorem dataOf_write (h : s.tree.nodeOf b = some n) (id : ℕ) (d : Bytes) :
    (s.tree.write id d).dataOf b = some (if id = b ∧ n.refcount ≤ 1 then d else n.data) := by
  obtain ⟨n', hn', hdata⟩ := CowTree.nodeOf_write h id d
  rw [CowTree.dataOf, hn', Option.map_some, hdata]

/-- **One call.** It leaves the snapshots isolated exactly when it writes no other data through to
one. -/
theorem Inv.isolated_next (h : s.Inv) (hisolated : s.Isolated) (call : CowCall) :
    (s.next call).Isolated ↔ s.Keeps call := by
  cases call with
  | snapshot =>
    refine iff_of_true (fun e he ↦ ?_) trivial
    rcases List.mem_cons.mp he with rfl | he
    · obtain ⟨n, hn⟩ := h.root
      exact dataOf_snapshot hn
    · obtain ⟨n, hn⟩ := h.taken e he
      rw [dataOf_snapshot hn]
      exact hisolated e he
  | write id d =>
    -- snapshot by snapshot: the data is still there unless the write went through to it
    have hsame : ∀ e ∈ s.taken, (s.tree.write id d).dataOf e.1 = e.2 ↔
        (e.1 = id → ∀ n, s.tree.nodeOf id = some n → n.refcount ≤ 1 → n.data = d) := by
      intro e he
      obtain ⟨n, hn⟩ := h.taken e he
      have hbefore : some n.data = e.2 := by
        rw [← hisolated e he, CowTree.dataOf, hn, Option.map_some]
      rw [dataOf_write hn, ← hbefore, Option.some_inj]
      constructor
      · rintro hdata rfl n' hn' hle
        obtain rfl := Option.some_inj.mp (hn.symm.trans hn')
        rw [if_pos ⟨rfl, hle⟩] at hdata
        exact hdata.symm
      · intro hkeeps
        split_ifs with hc
        · exact (hkeeps hc.1.symm n (hc.1 ▸ hn) hc.2).symm
        · rfl
    exact forall₂_congr hsame

end CowSys

/-- **Snapshot isolation.** In the runs whose writes change no unshared node that a snapshot holds,
every snapshot reads what it did; and a further call keeps it so exactly when it is such a call. -/
theorem snapshot_isolation_iff {s : CowSys} (hs : (cowSystem CowSys.Keeps).Reachable s) :
    s.Isolated ∧ ∀ call, (s.next call).Isolated ↔ s.Keeps call := by
  have hisolated : s.Isolated := by
    refine hs.invariant (P := CowSys.Isolated) (fun t ht ↦ ?_) fun t call t' ht hisolated hstep ↦ ?_
    · rw [ht]
      exact fun _ h ↦ absurd h List.not_mem_nil
    · rw [← Option.some_inj.mp hstep.2]
      exact ((CowSys.inv_of_reachable ht).isolated_next hisolated call).mpr hstep.1
  exact ⟨hisolated, (CowSys.inv_of_reachable hs).isolated_next hisolated⟩

/-- A snapshot, and a write to the node that it shares with the live tree: the snapshot still reads
nothing. The copy may be written next; the original may not. -/
theorem snapshot_isolation_written :
    let s := (CowSys.new.next .snapshot).next (.write 0 [1])
    s.taken = [(0, some [])] ∧ s.tree.dataOf 1 = some [1] ∧ s.Isolated
      ∧ (s.next (.write 1 [2])).Isolated ∧ ¬(s.next (.write 0 [2])).Isolated := by
  intro s
  have hnode : (CowSys.new.next .snapshot).tree.nodeOf 0
      = some { CowNode.newLeaf 0 [] with refcount := 2 } := rfl
  have hkeeps : (CowSys.new.next .snapshot).Keeps (.write 0 [1]) := by
    intro e he hid n hn hle
    rw [hnode] at hn
    obtain rfl := Option.some_inj.mp hn
    exact absurd hle (by decide)
  have hsnapshot : (cowSystem CowSys.Keeps).Reachable (CowSys.new.next .snapshot) :=
    .step (e := .snapshot) (.init rfl) ⟨trivial, rfl⟩
  have hs : (cowSystem CowSys.Keeps).Reachable s :=
    .step (e := .write 0 [1]) hsnapshot ⟨hkeeps, rfl⟩
  obtain ⟨hisolated, hnext⟩ := snapshot_isolation_iff hs
  refine ⟨rfl, rfl, hisolated, (hnext _).mpr ?_, fun h ↦ ?_⟩
  · intro e he hid
    rw [List.mem_singleton.mp he] at hid
    cases hid
  · have hdata := (hnext _).mp h (0, some []) List.mem_cons_self rfl
      (CowNode.newLeaf 0 []) rfl le_rfl
    cases hdata

/-- **A snapshot is overwritten** by the second write after it. -/
theorem snapshot_overwritten :
    ¬∀ s, (cowSystem CowSys.Addressed).Reachable s → s.Isolated := by
  intro h
  have hrun : (CowSys.machine CowSys.Addressed).run [.snapshot, .write 0 [1], .write 0 [2]]
      CowSys.new = some ⟨((CowTree.new.snapshot.2.write 0 [1]).write 0 [2]), [(0, some [])]⟩ := rfl
  have hisolated := h _ (Machine.reachable_run (.init rfl) hrun) (0, some []) (by simp)
  exact absurd hisolated (by decide)

/-- **Writes to the live tree.** In every state that snapshots and writes can reach, a write to the
root reads back exactly when the root is not shared, or holds that data already. -/
theorem root_write_iff {s : CowSys} (hs : (cowSystem fun _ _ ↦ True).Reachable s) (d : Bytes) :
    (s.tree.write s.tree.root d).dataOf (s.tree.write s.tree.root d).root = some d ↔
      ∀ n, s.tree.nodeOf s.tree.root = some n → n.refcount ≤ 1 ∨ n.data = d := by
  obtain ⟨n, hn⟩ := (CowSys.inv_of_reachable hs).root
  rw [CowTree.write_root, CowSys.dataOf_write hn, Option.some_inj, hn]
  constructor
  · rintro hdata n' hn'
    obtain rfl := Option.some_inj.mp hn'
    split_ifs at hdata with hle
    · exact .inl hle.2
    · exact .inr hdata
  · intro h
    split_ifs with hle
    · rfl
    · exact (h n rfl).resolve_left fun hc ↦ hle ⟨rfl, hc⟩

/-- Once a snapshot and a write have brought the count of the root back to one, a write to the live
tree reads back, under the id that the snapshot holds too. -/
theorem root_write_again :
    let s := (CowSys.new.next .snapshot).next (.write 0 [1])
    s.tree.dataOf s.tree.root = some [] ∧ (s.tree.write 0 [2]).dataOf 0 = some [2] := by
  intro s
  have hsnapshot : (cowSystem fun _ _ ↦ True).Reachable (CowSys.new.next .snapshot) :=
    .step (e := .snapshot) (.init rfl) ⟨trivial, rfl⟩
  have hs : (cowSystem fun _ _ ↦ True).Reachable s :=
    .step (e := .write 0 [1]) hsnapshot ⟨trivial, rfl⟩
  have hnode : s.tree.nodeOf s.tree.root = some (CowNode.newLeaf 0 []) := rfl
  refine ⟨rfl, (root_write_iff hs [2]).mpr fun n hn ↦ ?_⟩
  rw [hnode] at hn
  obtain rfl := Option.some_inj.mp hn
  exact .inl le_rfl

/-- **A write to the live tree is lost** once a snapshot shares the root. -/
theorem root_write_lost :
    ¬∀ s, (cowSystem fun _ _ ↦ True).Reachable s → ∀ d,
      (s.tree.write s.tree.root d).dataOf (s.tree.write s.tree.root d).root = some d := by
  intro h
  have hdata := h (CowSys.new.next .snapshot)
    (.step (.init rfl) (e := CowCall.snapshot) ⟨trivial, rfl⟩) [1]
  exact absurd hdata (by decide)

end Zeroxos
