import Zeroxos.Fs.ChecksumPoly
import Zeroxos.Fs.Cow
import Zeroxos.Fs.Superblock

/-!
# Burst corruption

What the checksum notices, carried over to the two structures that keep one: a tree whose nodes
verify, and a superblock. In both the data is changed and the checksum kept.
-/

namespace Zeroxos

/-- **Data with its checksum** no longer has it after a burst. -/
theorem checksum_ne_of_burst {data data' : Bytes} {checksum : BitVec 32}
    (h : checksum = crc32 data) (hlen : data.length = data'.length) (hne : data ≠ data')
    (hwithin : DifferWithin 32 data data') : checksum ≠ crc32 data' :=
  fun h' ↦ hne (eq_of_crc32_eq hlen hwithin (h.symm.trans h'))

theorem CowTree.verify_eq_false {t : CowTree} {n : CowNode} (hn : n ∈ t.nodes)
    (h : n.checksum ≠ crc32 n.data) : t.verify = false :=
  List.all_eq_false.mpr ⟨n, hn, by simpa using h⟩

theorem Superblock.verify_eq_false {sb : Superblock} (h : sb.checksum ≠ crc32 sb.bytesNoChecksum) :
    sb.verify = false := by
  rw [← Bool.not_eq_true, Superblock.verify_iff]
  exact fun hverify ↦ h hverify.2

/-- **Burst corruption is always detected**: by the checksum of any byte string, in the data of any
node of a tree that verifies, and in the fields of a superblock that verifies. -/
theorem burst_detected :
    (∀ data data' : Bytes, data.length = data'.length → data ≠ data' →
      DifferWithin 32 data data' → crc32 data ≠ crc32 data') ∧
    (∀ (t : CowTree) (i : ℕ) (n : CowNode) (data' : Bytes), t.verify = true →
      t.nodes[i]? = some n → n.data.length = data'.length → n.data ≠ data' →
      DifferWithin 32 n.data data' →
      { t with nodes := t.nodes.set i { n with data := data' } }.verify = false) ∧
    ∀ sb sb' : Superblock, sb.verify = true → sb'.checksum = sb.checksum → sb' ≠ sb →
      DifferWithin 32 sb.bytesNoChecksum sb'.bytesNoChecksum → sb'.verify = false := by
  refine ⟨fun data data' hlen hne hwithin ↦ checksum_ne_of_burst rfl hlen hne hwithin,
    fun t i n data' hverify hn hlen hne hwithin ↦ ?_, fun sb sb' hverify hsum hne hwithin ↦ ?_⟩
  · obtain ⟨hi, hget⟩ := List.getElem?_eq_some_iff.mp hn
    have hsum : n.checksum = crc32 n.data := by
      have hall := List.all_eq_true.mp hverify n (hget ▸ List.getElem_mem hi)
      exact of_decide_eq_true hall
    have hmem : { n with data := data' } ∈ t.nodes.set i { n with data := data' } :=
      List.mem_set hi _
    exact CowTree.verify_eq_false hmem (checksum_ne_of_burst hsum hlen hne hwithin)
  · apply Superblock.verify_eq_false
    rw [hsum]
    apply checksum_ne_of_burst (Superblock.verify_iff.mp hverify).2 (by simp) _ hwithin
    intro hbytes
    exact hne (Superblock.eq_of_bytesNoChecksum_eq hsum.symm hbytes).symm

/-- One bit of a byte, of the data of a node, and of the version of a superblock. -/
theorem burst_detected_bit :
    crc32 [0] ≠ crc32 [1] ∧
      { CowTree.new with nodes := [{ CowNode.newLeaf 0 [0] with data := [1] }] }.verify = false ∧
      { Superblock.new 4096 100 with version := 3 }.verify = false := by
  have hbit : DifferWithin 32 ([0] : Bytes) [1] := ⟨0, by decide⟩
  obtain ⟨hdata, htree, hsuperblock⟩ := burst_detected
  refine ⟨hdata [0] [1] rfl (by decide) hbit,
    htree { CowTree.new with nodes := [.newLeaf 0 [0]] } 0 (.newLeaf 0 [0]) [1] (by decide) rfl rfl
      (by decide) hbit,
    hsuperblock (.new 4096 100) _ (Superblock.verify_new _ _) rfl ?_ ⟨64, ?_⟩⟩
  · intro h
    exact absurd (congrArg Superblock.version h) (by decide)
  · decide +kernel

end Zeroxos
