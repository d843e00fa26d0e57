import Aufs.Disk
import Aufs.Lib.Word

/-! The in-memory super block and inode of the kernel module (`kern/aufs.h`), and how they are
read from disk (`aufs_super_block_fill`, `aufs_fill_sb` in `kern/super.c`). -/

namespace Aufs
open Bytes Word

/-- The error numbers the module returns. -/
inductive Errno where
  | eio
  | enomem
  | eexist
  | einval
  | efbig
  | enospc
  | enametoolong
  deriving DecidableEq, Repr

/-- `struct aufs_super_block`, without the buffer heads. -/
structure AufsSuperBlock where
  asbMagic : Nat
  asbInodeBlocks : Nat
  asbZoneSize : Nat
  asbRootInode : Nat
  asbInodesInBlock : Nat
  asbInodeMapBlocks : Nat
  asbZoneMapBlocks : Nat
  asbBlocksPerZone : Nat
  asbAlignmentNumBlocks : Nat
  deriving DecidableEq, Repr

/-- What `kzalloc` returns. -/
def AufsSuperBlock.zero : AufsSuperBlock := ⟨0, 0, 0, 0, 0, 0, 0, 0, 0⟩

/-- `block_size` is taken from `asb_zone_size` before that field is assigned. -/
def aufsSuperBlockFill (asb : AufsSuperBlock) (dsb : Mem) : AufsSuperBlock :=
  let blockSize := i32 (if asb.asbZoneSize > 4096 then asb.asbZoneSize else 4096)
  let zoneSize := be32 dsb dsbBlockSize
  { asbMagic := be32 dsb dsbMagic
    asbInodeBlocks := be32 dsb dsbInodeBlocks
    asbZoneSize := zoneSize
    asbRootInode := be32 dsb dsbRootInode
    asbInodeMapBlocks := be32 dsb dsbInodeMapBlocks
    asbZoneMapBlocks := be32 dsb dsbZoneMapBlocks
    asbAlignmentNumBlocks := be32 dsb dsbAlignmentNumBlocks
    asbBlocksPerZone := if zoneSize > 4096 then zoneSize / 4096 else 1
    asbInodesInBlock := u64OfInt blockSize / 64 }

/-- The super block is its first 28 bytes. -/
theorem aufsSuperBlockFill_congr {asb : AufsSuperBlock} {m m' : Mem} (h : ∀ k < 28, m k = m' k) :
    aufsSuperBlockFill asb m = aufsSuperBlockFill asb m' := by
  have hword : ∀ off ≤ 24, be32 m off = be32 m' off :=
    fun off hoff => be32_congr fun k hk => h _ (by omega)
  simp only [aufsSuperBlockFill, hword _ (show dsbMagic ≤ 24 by decide),
    hword _ (show dsbBlockSize ≤ 24 by decide), hword _ (show dsbRootInode ≤ 24 by decide),
    hword _ (show dsbInodeBlocks ≤ 24 by decide), hword _ (show dsbInodeMapBlocks ≤ 24 by decide),
    hword _ (show dsbZoneMapBlocks ≤ 24 by decide),
    hword _ (show dsbAlignmentNumBlocks ≤ 24 by decide)]

/-- The mounted super block: the module's part of it and `s_blocksize`. -/
structure Sb where
  sbi : AufsSuperBlock
  sBlocksize : Nat
  deriving DecidableEq, Repr

/-- The super block after `aufs_fill_sb` has read `dsb` and set the block size. -/
def aufsFillSb (dsb : Mem) : Sb :=
  let asb := aufsSuperBlockFill .zero dsb
  { sbi := asb
    sBlocksize := if asb.asbZoneSize > 4096 then 4096 else asb.asbZoneSize }

theorem aufsFillSb_blocksPerZone_pos (dsb : Mem) :
    1 ≤ (aufsFillSb dsb).sbi.asbBlocksPerZone := by
  simp only [aufsFillSb, aufsSuperBlockFill]
  split
  · omega
  · exact Nat.le_refl 1

def aufsInodeBlock (asb : AufsSuperBlock) (ino : Nat) : Nat :=
  1 + asb.asbInodeMapBlocks + asb.asbZoneMapBlocks + ino / asb.asbInodesInBlock

def aufsInodeOffset (asb : AufsSuperBlock) (ino : Nat) : Nat :=
  64 * (ino % asb.asbInodesInBlock)

/-- `struct aufs_inode` with the fields of the embedded `struct inode` that the module uses;
`iDirty` stands for `I_DIRTY` in `i_state`. -/
structure AufsInode where
  aiZonePtr : Fin ZONE_PTR_IN_INODE_NUM → Nat
  iIno : Nat
  iMode : Nat
  iSize : Nat
  iBlocks : Nat
  iUid : Nat
  iGid : Nat
  iCtime : Nat
  iNlink : Nat
  iDirty : Bool

def markInodeDirty (inode : AufsInode) : AufsInode := { inode with iDirty := true }

end Aufs
