import Zeroxos.Fs.Checksum
import Zeroxos.Library.Rust

/-!
# The copy-on-write tree

`CowTree` of zeroxfs: a vector of nodes addressed by their ids, the first node with an id being the
one that counts. `snapshot` takes the id of the root and raises its reference count; `write`
replaces the data of a node in place when its count is at most one, and otherwise appends a copy
with the new data under a fresh id and lowers the count of the original.

## Representation

Counts are `u32` and wrap; ids are `u64` and count nodes of a vector in memory, so they do not. Keys
and children of a node are copied along and looked at by nobody. `nodeOf` is the lookup every method
starts with, and the two methods are specified by what they do to it (`nodeOf_snapshot`,
`nodeOf_write`).
-/

namespace Zeroxos

/-- A node of the tree. -/
structure CowNode where
  id : ℕ
  parent : Option ℕ
  keys : List ℕ
  children : List ℕ
  data : Bytes
  refcount : ℕ
  checksum : BitVec 32
deriving DecidableEq, Repr

def CowNode.newLeaf (id : ℕ) (data : Bytes) : CowNode :=
  ⟨id, none, [], [], data, 1, crc32 data⟩

namespace CowNode

/-- `node.refcount += 1`. -/
def retain (n : CowNode) : CowNode := { n with refcount := (n.refcount + 1) % 2 ^ 32 }

/-- `node.refcount -= 1`, on a node that is shared. -/
def release (n : CowNode) : CowNode := { n with refcount := n.refcount - 1 }

/-- The data and the checksum replaced. -/
def setData (data : Bytes) (n : CowNode) : CowNode :=
  { n with data := data, checksum := crc32 data }

end CowNode

/-- The tree. -/
structure CowTree where
  root : ℕ
  nodes : List CowNode
  nextId : ℕ
  snapshotCount : ℕ
deriving DecidableEq, Repr

/-- `iter_mut().find(..)`, and what is done to the node it finds. -/
def updateFirst (id : ℕ) (f : CowNode → CowNode) : List CowNode → List CowNode
  | [] => []
  | n :: l => if n.id = id then f n :: l else n :: updateFirst id f l

namespace CowTree

def new : CowTree := ⟨0, [.newLeaf 0 []], 1, 0⟩

/-- The node an id stands for. -/
def nodeOf (t : CowTree) (id : ℕ) : Option CowNode := t.nodes.find? fun n ↦ n.id = id

/-- `CowTree::snapshot`: the id of the root, and the tree with the root counted once more. -/
def snapshot (t : CowTree) : ℕ × CowTree :=
  (t.root, { t with
    snapshotCount := (t.snapshotCount + 1) % 2 ^ 32
    nodes := updateFirst t.root CowNode.retain t.nodes })

def write (leafId : ℕ) (newData : Bytes) (t : CowTree) : CowTree :=
  match t.nodeOf leafId with
  | none => t
  | some node =>
    if 1 < node.refcount then
      { t with
        nextId := wadd t.nextId 1
        nodes := updateFirst leafId CowNode.release t.nodes ++
          [{ node.setData newData with id := t.nextId, refcount := 1 }] }
    else { t with nodes := updateFirst leafId (CowNode.setData newData) t.nodes }

def verify (t : CowTree) : Bool := t.nodes.all fun n ↦ n.checksum = crc32 n.data

/-! ## Lookups -/

variable {t : CowTree} {id b : ℕ} {d : Bytes} {n : CowNode}

theorem find?_updateFirst {f : CowNode → CowNode} (hf : ∀ n, (f n).id = n.id) (id b : ℕ)
    (l : List CowNode) : (updateFirst id f l).find? (fun n ↦ n.id = b)
      = if id = b then (l.find? fun n ↦ n.id = b).map f else l.find? fun n ↦ n.id = b := by
  induction l with
  | nil => simp [updateFirst]
  | cons n l ih =>
    rw [updateFirst]
    by_cases hid : n.id = id
    · subst hid
      by_cases hb : n.id = b
      · simp [hf, hb]
      · simp [hf, hb]
    · rw [if_neg hid, List.find?_cons, List.find?_cons]
      by_cases hb : n.id = b
      · have hne : id ≠ b := fun h ↦ hid (hb.trans h.symm)
        simp [hb, hne]
      · simp only [hb, decide_false, ih]

/-- **`snapshot`** changes no data. -/
theorem nodeOf_snapshot (h : t.nodeOf b = some n) :
    ∃ n', t.snapshot.2.nodeOf b = some n' ∧ n'.data = n.data := by
  rw [nodeOf] at h
  rw [snapshot, nodeOf, find?_updateFirst (f := CowNode.retain) (fun _ ↦ rfl), h]
  split_ifs
  · exact ⟨_, rfl, rfl⟩
  · exact ⟨n, rfl, rfl⟩

/-- **`write`** changes the data of the node it is addressed to, when that is not shared, and no
other node that was there. -/
theorem nodeOf_write (h : t.nodeOf b = some n) (id : ℕ) (d : Bytes) :
    ∃ n', (t.write id d).nodeOf b = some n' ∧
      n'.data = if id = b ∧ n.refcount ≤ 1 then d else n.data := by
  rw [write]
  cases hid : t.nodeOf id with
  | none =>
    have hne : id ≠ b := by
      rintro rfl
      rw [h] at hid
      cases hid
    exact ⟨n, h, by rw [if_neg fun hc ↦ hne hc.1]⟩
  | some node =>
    dsimp only
    rw [nodeOf] at h
    split_ifs with hshared hc hc
    · -- the copy has the same id as the node only if there is no node
      obtain ⟨rfl, hle⟩ := hc
      rw [nodeOf, h] at hid
      cases hid
      exact absurd hshared (not_lt.mpr hle)
    · rw [nodeOf, List.find?_append, find?_updateFirst (f := CowNode.release) (fun _ ↦ rfl), h]
      split_ifs
      · exact ⟨_, rfl, rfl⟩
      · exact ⟨n, rfl, rfl⟩
    · obtain ⟨rfl, -⟩ := hc
      rw [nodeOf, find?_updateFirst (f := CowNode.setData d) (fun _ ↦ rfl), h, if_pos rfl]
      exact ⟨_, rfl, rfl⟩
    · have hne : id ≠ b := by
        rintro rfl
        rw [nodeOf, h] at hid
        cases hid
        exact hc ⟨rfl, not_lt.mp hshared⟩
      rw [nodeOf, find?_updateFirst (f := CowNode.setData d) (fun _ ↦ rfl), h, if_neg hne]
      exact ⟨n, rfl, rfl⟩

@[simp] theorem write_root (id : ℕ) (d : Bytes) (t : CowTree) : (t.write id d).root = t.root := by
  rw [write]
  split
  · rfl
  · split_ifs <;> rfl

end CowTree

end Zeroxos
