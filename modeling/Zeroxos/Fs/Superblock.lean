import Zeroxos.Fs.Checksum
import Zeroxos.Library.LittleEndian

/-!
# The superblock

The fields of a zeroxfs superblock, and the bytes its checksum is taken of. Every field has a fixed
width, so the bytes determine the fields.
-/

namespace Zeroxos

/-- `MAGIC`, the letters `ZEROXFS1`. -/
def magic : Vector (BitVec 8) 8 := #v[0x5A, 0x45, 0x52, 0x4F, 0x58, 0x46, 0x53, 0x31]

structure Superblock where
  magic : Vector (BitVec 8) 8
  version : BitVec 32
  blockSize : BitVec 32
  totalBlocks : BitVec 64
  freeBlocks : BitVec 64
  rootInode : BitVec 64
  journalStart : BitVec 64
  journalBlocks : BitVec 64
  checksum : BitVec 32
deriving DecidableEq

namespace Superblock

def bytesNoChecksum (sb : Superblock) : Bytes :=
  sb.magic.toList ++ toLeBytes 4 sb.version.toNat ++ toLeBytes 4 sb.blockSize.toNat
    ++ toLeBytes 8 sb.totalBlocks.toNat ++ toLeBytes 8 sb.freeBlocks.toNat
    ++ toLeBytes 8 sb.rootInode.toNat ++ toLeBytes 8 sb.journalStart.toNat
    ++ toLeBytes 8 sb.journalBlocks.toNat

def computeChecksum (sb : Superblock) : BitVec 32 := crc32 sb.bytesNoChecksum

def new (blockSize : BitVec 32) (totalBlocks : BitVec 64) : Superblock :=
  let sb : Superblock :=
    { magic := Zeroxos.magic
      version := 1
      blockSize := blockSize
      totalBlocks := totalBlocks
      freeBlocks := totalBlocks
      rootInode := 1
      journalStart := 1
      journalBlocks := 1024
      checksum := 0 }
  { sb with checksum := sb.computeChecksum }

def verify (sb : Superblock) : Bool :=
  sb.magic = Zeroxos.magic && sb.checksum = sb.computeChecksum

variable {sb sb' : Superblock}

theorem verify_iff : sb.verify = true ↔ sb.magic = Zeroxos.magic ∧
    sb.checksum = crc32 sb.bytesNoChecksum := by
  rw [verify, Bool.and_eq_true, decide_eq_true_iff, decide_eq_true_iff, computeChecksum]

theorem verify_new (blockSize : BitVec 32) (totalBlocks : BitVec 64) :
    (new blockSize totalBlocks).verify = true := verify_iff.mpr ⟨rfl, rfl⟩

@[simp] theorem length_bytesNoChecksum (sb : Superblock) : sb.bytesNoChecksum.length = 56 := by
  simp [bytesNoChecksum]

private theorem leBytes_inj {n : ℕ} {x y : BitVec (8 * n)}
    (h : toLeBytes n x.toNat = toLeBytes n y.toNat) : x = y := by
  have hlt : ∀ z : BitVec (8 * n), z.toNat < (2 ^ 8) ^ n := fun z ↦ by
    rw [← pow_mul]
    exact z.isLt
  exact BitVec.eq_of_toNat_eq ((toLeBytes_inj (hlt x) (hlt y)).mp h)

/-- **The bytes determine the fields**, other than the checksum. -/
theorem eq_of_bytesNoChecksum_eq (hchecksum : sb.checksum = sb'.checksum)
    (h : sb.bytesNoChecksum = sb'.bytesNoChecksum) : sb = sb' := by
  rw [bytesNoChecksum, bytesNoChecksum] at h
  -- field by field from the back, each of one width in both
  obtain ⟨h, hjournalBlocks⟩ := List.append_inj' h (by simp)
  obtain ⟨h, hjournalStart⟩ := List.append_inj' h (by simp)
  obtain ⟨h, hrootInode⟩ := List.append_inj' h (by simp)
  obtain ⟨h, hfreeBlocks⟩ := List.append_inj' h (by simp)
  obtain ⟨h, htotalBlocks⟩ := List.append_inj' h (by simp)
  obtain ⟨h, hblockSize⟩ := List.append_inj' h (by simp)
  obtain ⟨hmagic, hversion⟩ := List.append_inj' h (by simp)
  obtain ⟨⟩ := sb
  obtain ⟨⟩ := sb'
  congr 1
  · exact Vector.toList_inj.mp hmagic
  · exact leBytes_inj (n := 4) hversion
  · exact leBytes_inj (n := 4) hblockSize
  · exact leBytes_inj (n := 8) htotalBlocks
  · exact leBytes_inj (n := 8) hfreeBlocks
  · exact leBytes_inj (n := 8) hrootInode
  · exact leBytes_inj (n := 8) hjournalStart
  · exact leBytes_inj (n := 8) hjournalBlocks

end Superblock

end Zeroxos
