import Mathlib.Algebra.BigOperators.Group.List.Lemmas
import Mathlib.Algebra.GroupWithZero.Nat
import Mathlib.Algebra.Order.BigOperators.Group.List
import Zeroxos.Fs.CowSnapshot

/-!
# The representation of the copy-on-write tree

The ids of the nodes are the numbers below `nextId`, in order, since a copy is appended under the
next of them.

## The invariant

A snapshot adds one to the sum of all reference counts, and a write leaves that sum alone: the copy
counts one, and the original one less. So the counts of a tree of which `k` snapshots were taken add
up to `1 + k` (`Laid`), no count is more than that, and there are at most as many nodes.

## The bound

That is what keeps the `u32` counts from wrapping: they do so when `2 ^ 32 - 1` snapshots were taken
of a root that was never copied, and the count of the root is then zero. With fewer snapshots every
list of calls keeps the representation (`cow_invariant`).
-/

namespace Zeroxos

/-- The call takes a snapshot. -/
def CowCall.isSnapshot : CowCall → Bool
  | .snapshot => true
  | .write _ _ => false

/-- A node that is counted, and whose checksum is that of its data. -/
structure CowNode.Sound (n : CowNode) : Prop where
  counted : 1 ≤ n.refcount
  checked : n.checksum = crc32 n.data

namespace CowTree

/-- One call. -/
def call (t : CowTree) : CowCall → CowTree
  | .snapshot => t.snapshot.2
  | .write id data => t.write id data

variable {t : CowTree} {n : CowNode} {k : ℕ}

/-! ## Where an update takes place -/

theorem updateFirst_of_find? {id : ℕ} (f : CowNode → CowNode) {l : List CowNode}
    (h : (l.find? fun n ↦ n.id = id) = some n) :
    n.id = id ∧ ∃ before after, l = before ++ n :: after ∧
      updateFirst id f l = before ++ f n :: after := by
  induction l with
  | nil => simp at h
  | cons m l ih =>
    rw [List.find?_cons] at h
    by_cases hid : m.id = id
    · simp only [hid, decide_true, Option.some_inj] at h
      subst h
      exact ⟨hid, [], l, rfl, by rw [updateFirst, if_pos hid]; rfl⟩
    · simp only [hid, decide_false] at h
      obtain ⟨hn, before, after, rfl, hafter⟩ := ih h
      exact ⟨hn, m :: before, after, rfl, by rw [updateFirst, if_neg hid, hafter]; rfl⟩

theorem getElem?_updateFirst {id i : ℕ} (f : CowNode → CowNode) {l : List CowNode}
    (h : l[i]? = some n) (hid : n.id ≠ id) : (updateFirst id f l)[i]? = some n := by
  induction l generalizing i with
  | nil => simp at h
  | cons m l ih =>
    rw [updateFirst]
    rcases i with _ | i
    · rw [List.getElem?_cons_zero, Option.some_inj] at h
      subst h
      rw [if_neg hid, List.getElem?_cons_zero]
    · rw [List.getElem?_cons_succ] at h
      split_ifs
      · exact h
      · exact ih h

/-- **A write is local**: it changes no node that was there but the one addressed. -/
theorem getElem?_write {id i : ℕ} (d : Bytes) (h : t.nodes[i]? = some n) (hid : n.id ≠ id) :
    (t.write id d).nodes[i]? = some n := by
  rw [write]
  split
  · exact h
  · split_ifs
    · -- the copy comes behind all the nodes
      have hstays := getElem?_updateFirst CowNode.release h hid
      obtain ⟨hi, -⟩ := List.getElem?_eq_some_iff.mp hstays
      exact (List.getElem?_append_left hi).trans hstays
    · exact getElem?_updateFirst (CowNode.setData d) h hid

/-! ## The invariant -/

/-- Sound nodes with the ids below `next`, in order, whose counts add up to `total`. -/
structure Laid (l : List CowNode) (next total : ℕ) : Prop where
  ids : l.map CowNode.id = List.range next
  sound : ∀ n ∈ l, n.Sound
  total : (l.map CowNode.refcount).sum = total

namespace Laid

variable {l before after : List CowNode} {next total total' : ℕ} {n' : CowNode}

theorem refcount_le (h : Laid l next total) (hn : n ∈ l) : n.refcount ≤ total :=
  h.total ▸ List.single_le_sum (fun _ _ ↦ Nat.zero_le _) _ (List.mem_map_of_mem hn)

theorem next_le (h : Laid l next total) : next ≤ total := by
  have hlen : (l.map CowNode.refcount).length = next := by
    rw [List.length_map, ← List.length_map CowNode.id, h.ids, List.length_range]
  rw [← hlen, ← h.total]
  apply List.length_le_sum_of_one_le
  intro c hc
  obtain ⟨n, hn, rfl⟩ := List.mem_map.mp hc
  exact (h.sound n hn).counted

theorem replace (h : Laid (before ++ n :: after) next total) (hsound : n'.Sound)
    (hid : n'.id = n.id) (htotal : total' + n.refcount = total + n'.refcount) :
    Laid (before ++ n' :: after) next total' where
  ids := by
    rw [← h.ids]
    simp [hid]
  sound := by
    have hall := h.sound
    simp only [List.forall_mem_append, List.forall_mem_cons] at hall ⊢
    exact ⟨hall.1, hsound, hall.2.2⟩
  total := by
    have hsum := h.total
    simp only [List.map_append, List.map_cons, List.sum_append, List.sum_cons] at hsum ⊢
    omega

theorem snoc (h : Laid l next total) (hid : n.id = next) (hsound : n.Sound) :
    Laid (l ++ [n]) (next + 1) (total + n.refcount) where
  ids := by
    rw [List.map_append, h.ids, List.range_succ, ← hid]
    rfl
  sound := List.forall_mem_append.mpr ⟨h.sound, List.forall_mem_singleton.mpr hsound⟩
  total := by
    rw [List.map_append, List.sum_append, h.total]
    simp

end Laid

/-- The representation of a tree of which `k` snapshots were taken. -/
structure Valid (t : CowTree) (k : ℕ) : Prop where
  root : ∃ n, t.nodeOf t.root = some n
  laid : Laid t.nodes t.nextId (1 + k)

theorem valid_new : new.Valid 0 where
  root := ⟨_, rfl⟩
  laid := ⟨rfl, List.forall_mem_singleton.mpr ⟨le_rfl, rfl⟩, rfl⟩

/-- **A snapshot** adds one to the counts, as long as the count of the root does not wrap. -/
theorem Valid.snapshot (h : t.Valid k) (hk : k + 2 < 2 ^ 32) : t.snapshot.2.Valid (k + 1) := by
  obtain ⟨n, hn⟩ := h.root
  obtain ⟨n', hn', -⟩ := nodeOf_snapshot hn
  obtain ⟨-, before, after, hnodes, hupdate⟩ := updateFirst_of_find? CowNode.retain hn
  have hlaid := h.laid
  rw [hnodes] at hlaid
  have hretain : n.retain.refcount = n.refcount + 1 := by
    have hle : n.refcount ≤ 1 + k := hlaid.refcount_le (by simp)
    exact Nat.mod_eq_of_lt (by omega)
  have hsound : n.retain.Sound := by
    refine ⟨?_, (hlaid.sound n (by simp)).checked⟩
    rw [hretain]
    exact Nat.le_add_left 1 _
  refine ⟨⟨n', hn'⟩, ?_⟩
  have hnodes' : t.snapshot.2.nodes = before ++ n.retain :: after := hupdate
  rw [hnodes']
  apply hlaid.replace hsound rfl
  rw [hretain]
  ring

/-- **A write** leaves the sum of the counts alone. -/
theorem Valid.write (h : t.Valid k) (hk : k + 2 < wordSize) (id : ℕ) (d : Bytes) :
    (t.write id d).Valid k := by
  obtain ⟨r, hr⟩ := h.root
  obtain ⟨r', hr', -⟩ := nodeOf_write hr id d
  refine ⟨⟨r', by rw [write_root]; exact hr'⟩, ?_⟩
  rcases hid : t.nodeOf id with _ | n
  · rw [CowTree.write, hid]
    exact h.laid
  · have hlaid := h.laid
    rw [CowTree.write, hid]
    dsimp only
    split_ifs with hshared
    · -- one count less for the original, and one for the copy
      obtain ⟨-, before, after, hnodes, hupdate⟩ := updateFirst_of_find? CowNode.release hid
      rw [hnodes] at hlaid
      have hnext : wadd t.nextId 1 = t.nextId + 1 := by
        have hle := hlaid.next_le
        exact wadd_of_lt (by omega)
      have hsound : n.release.Sound :=
        ⟨Nat.le_sub_one_of_lt hshared, (hlaid.sound n (by simp)).checked⟩
      have hrelease : Laid (before ++ n.release :: after) t.nextId k := by
        apply hlaid.replace hsound rfl
        have hcount : n.release.refcount = n.refcount - 1 := rfl
        omega
      rw [hupdate, hnext, add_comm 1 k]
      exact hrelease.snoc rfl ⟨le_rfl, rfl⟩
    · obtain ⟨-, before, after, hnodes, hupdate⟩ := updateFirst_of_find? (CowNode.setData d) hid
      rw [hnodes] at hlaid
      rw [hupdate]
      exact hlaid.replace ⟨(hlaid.sound n (by simp)).counted, rfl⟩ rfl rfl

/-- **Every run** with fewer than `2 ^ 32 - 1` snapshots keeps the representation. -/
theorem valid_foldl (calls : List CowCall)
    (h : calls.countP CowCall.isSnapshot < 2 ^ 32 - 1) :
    (calls.foldl call new).Valid (calls.countP CowCall.isSnapshot) := by
  induction calls using List.reverseRecOn with
  | nil => exact valid_new
  | append_singleton calls c ih =>
    rw [List.countP_append, List.countP_singleton] at h
    rw [List.foldl_append, List.foldl_cons, List.foldl_nil, List.countP_append,
      List.countP_singleton]
    have hvalid := ih (by omega)
    rcases c with _ | ⟨id, d⟩
    · have hk : calls.countP CowCall.isSnapshot + 1 < 2 ^ 32 - 1 := h
      exact hvalid.snapshot (by omega)
    · exact hvalid.write (by rw [wordSize]; omega) id d

end CowTree

/-- **The representation invariant**, for every sequence of calls with fewer than `2 ^ 32 - 1`
snapshots. -/
theorem cow_invariant (calls : List CowCall)
    (h : calls.countP CowCall.isSnapshot < 2 ^ 32 - 1) :
    let t := calls.foldl CowTree.call CowTree.new
    (t.nodes.map CowNode.id).Nodup ∧ (∀ n ∈ t.nodes, n.id < t.nextId) ∧
      (∃ n ∈ t.nodes, n.id = t.root) ∧ (∀ n ∈ t.nodes, 1 ≤ n.refcount) ∧
      (∀ n ∈ t.nodes, n.checksum = crc32 n.data) ∧ t.verify = true ∧
      ∀ (id : ℕ) (d : Bytes) (i : ℕ) (n : CowNode), t.nodes[i]? = some n → n.id ≠ id →
        (t.write id d).nodes[i]? = some n := by
  obtain ⟨⟨r, hr⟩, hlaid⟩ := CowTree.valid_foldl calls h
  intro t
  refine ⟨?_, fun n hn ↦ ?_, ⟨r, List.mem_of_find?_eq_some hr, ?_⟩,
    fun n hn ↦ (hlaid.sound n hn).counted, fun n hn ↦ (hlaid.sound n hn).checked, ?_,
    fun id d i n hn hid ↦ CowTree.getElem?_write d hn hid⟩
  · rw [hlaid.ids]
    exact List.nodup_range
  · rw [← List.mem_range, ← hlaid.ids]
    exact List.mem_map_of_mem hn
  · exact (CowTree.updateFirst_of_find? id hr).1
  · exact List.all_eq_true.mpr fun n hn ↦ decide_eq_true (hlaid.sound n hn).checked

/-- A snapshot, and a write to the root. -/
theorem cow_invariant_copy :
    (([CowCall.snapshot, .write 0 [1]].foldl CowTree.call CowTree.new).nodes.map
      CowNode.id).Nodup :=
  (cow_invariant [.snapshot, .write 0 [1]] (by decide)).1

/-- Snapshots alone count up the root. -/
theorem CowTree.foldl_snapshots (k : ℕ) :
    (List.replicate k CowCall.snapshot).foldl CowTree.call CowTree.new =
      { CowTree.new with
        nodes := [{ CowNode.newLeaf 0 [] with refcount := (1 + k) % 2 ^ 32 }]
        snapshotCount := k % 2 ^ 32 } := by
  induction k with
  | zero => rfl
  | succ k ih =>
    rw [List.replicate_succ', List.foldl_append, ih, List.foldl_cons, List.foldl_nil]
    simp [CowTree.call, CowTree.snapshot, CowTree.new, updateFirst, CowNode.retain,
      CowNode.newLeaf, add_assoc]

/-- **The count of the root wraps** to zero at the snapshot number `2 ^ 32 - 1`. -/
theorem cow_refcount_wraps :
    ¬∀ calls : List CowCall, calls.countP CowCall.isSnapshot < 2 ^ 32 →
      ∀ n ∈ (calls.foldl CowTree.call CowTree.new).nodes, 1 ≤ n.refcount := by
  intro h
  have hwraps : ∀ k, (1 + k) % 2 ^ 32 = 0 → k < 2 ^ 32 → False := by
    intro k hk hlt
    have hcount : (List.replicate k CowCall.snapshot).countP CowCall.isSnapshot = k :=
      List.countP_replicate.trans (if_pos rfl)
    have hone := h _ (hcount ▸ hlt)
    rw [CowTree.foldl_snapshots, List.forall_mem_singleton] at hone
    exact absurd hk (Nat.one_le_iff_ne_zero.mp hone)
  exact hwraps (2 ^ 32 - 1) (by norm_num) (by norm_num)

end Zeroxos
