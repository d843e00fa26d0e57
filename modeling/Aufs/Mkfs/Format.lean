import Aufs.Disk
import Aufs.Mkfs.BitIterator
import Aufs.Mkfs.Configuration

/-! `Formatter`, `SuperBlock` and `Inode` of `user/format.cpp`: what one run of `mkfs.aufs` leaves
in the blocks it touches.

A block is memory seen from the start of its data; what lies behind the last byte of the data is
the heap of the process, which the search loops of the allocators may read. The block cache is
taken as transparent: a block is read from the device at its first use and written once at the
end. -/

namespace Aufs
open Bytes Word

/-- What a run takes from its host: the time, the ids of the user, and the memory behind each
block's data. -/
structure MkfsEnv where
  time : Nat
  uid : Nat
  gid : Nat
  heap : Nat → Mem

/-- `ReadBlock`: bytes past the end of the device stay zero, as the constructor of `Block` left
them. -/
def readBlock (env : MkfsEnv) (config : Configuration) (dev : Device) (no : Nat) : Mem := fun k =>
  if k < config.blockSize then
    if no * config.blockSize + k < dev.size then dev.bytes (no * config.blockSize + k) else 0
  else env.heap no k

/-- `WriteBlock`: the device keeps what lies inside it. -/
def writeBlock (config : Configuration) (dev : Device) (no : Nat) (block : Mem) : Device :=
  { dev with bytes := fun a =>
      if no * config.blockSize ≤ a ∧ a < (no + 1) * config.blockSize ∧ a < dev.size then
        block (a - no * config.blockSize)
      else dev.bytes a }

/-! ## `SuperBlock` -/

namespace SuperBlock

def fillZoneMap (config : Configuration) (m : Mem) : Option Mem := do
  let bits := u32 (config.numZoneMapBlocks * config.blockSize * 8)
  let blocks := min config.numZones bits
  let it : BitIterator := { mData := 0, mOffset := 0 }
  let m ← stdFill m it (it.advance 1) true
  let m ← stdFill m (it.advance 1) (it.advance blocks) false
  stdFill m (it.advance blocks) (it.advance bits) true

/-- The numbers below this one have a slot in the inode table and a bit in the inode map. -/
def numInodes (config : Configuration) : Nat :=
  let inBlock := config.blockSize / sizeofInode
  min (u32 (config.numInodeEntryBlocks * inBlock))
    (u32 (config.numInodeMapBlocks * config.blockSize * 8))

def fillInodeMap (config : Configuration) (m : Mem) : Option Mem := do
  let bits := u32 (config.numInodeMapBlocks * config.blockSize * 8)
  let it : BitIterator := { mData := 0, mOffset := 0 }
  let m ← stdFill m it (it.advance 1) true
  let m ← stdFill m (it.advance 1) (it.advance (numInodes config)) false
  stdFill m (it.advance (numInodes config)) (it.advance bits) true

def fillSuper (config : Configuration) (sb : Mem) : Mem :=
  let sb := putBe32 sb dsbMagic AUFS_MAGIC
  let sb := putBe32 sb dsbBlockSize config.zoneSize
  let sb := putBe32 sb dsbRootInode (2 ^ 32 - 1)
  let sb := putBe32 sb dsbInodeBlocks config.numInodeEntryBlocks
  let sb := putBe32 sb dsbInodeMapBlocks config.numInodeMapBlocks
  let sb := putBe32 sb dsbZoneMapBlocks config.numInodeMapBlocks
  putBe32 sb dsbAlignmentNumBlocks config.numBlockAlignment

def setRootInode (sb : Mem) (root : Nat) : Mem := putBe32 sb dsbRootInode root

/-- `AllocateInode`. The end iterator stands eight times too far, as the size of the map in bits
is added to a byte pointer. -/
def allocateInode (config : Configuration) (m : Mem) : Except MkfsError (Nat × Mem) :=
  let e : BitIterator := { mData := config.numInodeMapBlocks * config.blockSize * 8, mOffset := 0 }
  let b : BitIterator := { mData := 0, mOffset := 0 }
  let it := stdFind m b e false
  if it ≠ e then .ok (u32 (u64OfInt (it.distance b)), it.deref.assign m true)
  else .error (.exception "Cannot allocate inode")

/-- The loop of `AllocateZones`, for at most `fuel` rounds; `none` when it has not stopped. -/
def allocateZonesLoop (m : Mem) (b e : BitIterator) (zones : Nat) :
    Nat → BitIterator → Option (Except MkfsError (Nat × Mem))
  | 0, _ => none
  | fuel + 1, it =>
    if it ≠ e then
      let jt := stdFind m it e true
      if u64OfInt (jt.distance it) ≥ zones then do
        let m' ← stdFill m it (it.advance zones) true
        some (.ok (u32 (u64OfInt (it.distance b)), m'))
      else allocateZonesLoop m b e zones fuel jt
    else some (.error (.exception "Cannot allocate zones"))

def allocateZones (fuel : Nat) (config : Configuration) (m : Mem) (zones : Nat) :
    Option (Except MkfsError (Nat × Mem)) :=
  let e : BitIterator := { mData := config.numZoneMapBlocks * config.blockSize * 8, mOffset := 0 }
  let b : BitIterator := { mData := 0, mOffset := 0 }
  allocateZonesLoop m b e zones fuel (stdFind m b e false)

end SuperBlock

/-! ## `Inode` -/

namespace Inode

/-- The block and byte offset of inode `no`, as `FillInode` computes them. -/
def fillInodeBlock (config : Configuration) (no : Nat) : Nat :=
  no / (config.blockSize / sizeofInode) + 1 + config.numInodeMapBlocks + config.numZoneMapBlocks

def fillInodeOffset (config : Configuration) (no : Nat) : Nat :=
  no % (config.blockSize / sizeofInode) * sizeofInode

def setFirstBlock (raw : Mem) (off block : Nat) : Mem := putBe32 raw (off + diZonePtr 0) block

def clearAllOtherZones (raw : Mem) (off : Nat) : Mem :=
  [1, 2, 3, 4, 5, 6, 7, 8].foldl (fun raw i => putBe32 raw (off + diZonePtr i) 0) raw

def setBlocksCount (raw : Mem) (off count : Nat) : Mem := putBe32 raw (off + diBlocks) count
def setSize (raw : Mem) (off size : Nat) : Mem := putBe32 raw (off + diSize) size
def setGid (raw : Mem) (off gid : Nat) : Mem := putBe32 raw (off + diGid) gid
def setUid (raw : Mem) (off uid : Nat) : Mem := putBe32 raw (off + diUid) uid
def setMode (raw : Mem) (off mode : Nat) : Mem := putBe32 raw (off + diMode) mode
def setCreateTime (raw : Mem) (off ctime : Nat) : Mem := putBe64 raw (off + diCtime) ctime

end Inode

/-! ## `Formatter` -/

/-- The first block of zone `j` by the formula of `MkRootDir`, in `uint32_t`. -/
def mkfsZoneBlock (config : Configuration) (j : Nat) : Nat :=
  u32 (j * (config.zoneSize / config.blockSize) +
    config.calculateAlignedNumBlocks
      (u32 (config.numInodeMapBlocks + config.numInodeEntryBlocks + config.numZoneMapBlocks + 1)))

/-- A directory entry as `MkRootDir` writes it: the bytes behind the terminated name stay. -/
def mkfsDirEntry (content : Mem) (i ino : Nat) (name : String) : Mem :=
  poke (putBe32 content (i * AUFS_DIR_SIZE + ddeInode) ino) (i * AUFS_DIR_SIZE + ddeName)
    (ascii name ++ [0])

def rootDirContent (content : Mem) : Mem :=
  let content := mkfsDirEntry content 0 1 "."
  let content := mkfsDirEntry content 1 1 ".."
  mkfsDirEntry content 2 2 ".badblocks"

/-- The root inode's slot at offset `off` of its block. -/
def rootInodeSlot (env : MkfsEnv) (raw : Mem) (off block numBlocks : Nat) : Mem :=
  let raw := Inode.setCreateTime raw off env.time
  let raw := Inode.setFirstBlock raw off block
  let raw := Inode.clearAllOtherZones raw off
  let raw := Inode.setBlocksCount raw off numBlocks
  let raw := Inode.setSize raw off (2 * AUFS_DIR_SIZE)
  let raw := Inode.setUid raw off env.uid
  let raw := Inode.setGid raw off env.gid
  let raw := Inode.setMode raw off (S_IFDIR + 0o755)
  Inode.setCreateTime raw off env.time

/-- The blocks a run of `mkfs.aufs` leaves: the super block, the two maps, the block of the
inode table with the root inode, and the first block of the root directory. -/
structure Image where
  superBlock : Mem
  zoneMap : Mem
  inodeMap : Mem
  inodeBlock : Mem
  rootContent : Mem

/-- `main` after `ParseArgs`: construct the `Formatter`, `MkRootDir`, `SetRootInode`. There is no
image when an assertion fails, an allocator throws, or a loop is still running after `fuel`
rounds. -/
def mkfs (env : MkfsEnv) (fuel : Nat) (config : Configuration) (dev : Device) : Option Image := do
  let zoneMap ← SuperBlock.fillZoneMap config (readBlock env config dev 1)
  let inodeMap ← SuperBlock.fillInodeMap config
    (readBlock env config dev (1 + config.numZoneMapBlocks))
  let superBlock := SuperBlock.fillSuper config (readBlock env config dev 0)
  let bytes := 2 * AUFS_DIR_SIZE
  let numBlocks := u32 (bytes + config.zoneSize - 1) / config.zoneSize
  let (ino, inodeMap) ← (SuperBlock.allocateInode config inodeMap).toOption
  guard (ino = 1)
  let allocated ← SuperBlock.allocateZones fuel config zoneMap numBlocks
  let (zone, zoneMap) ← allocated.toOption
  guard (zone = 1)
  let block := mkfsZoneBlock config 1
  let slot := rootInodeSlot env (readBlock env config dev (Inode.fillInodeBlock config 1))
    (Inode.fillInodeOffset config 1) block numBlocks
  return {
    superBlock := SuperBlock.setRootInode superBlock 1
    zoneMap := zoneMap
    inodeMap := inodeMap
    inodeBlock := slot
    rootContent := rootDirContent (readBlock env config dev block) }

/-- The device after `Sync`, which writes the blocks in ascending order. -/
def Image.device (image : Image) (config : Configuration) (dev : Device) : Device :=
  let dev := writeBlock config dev 0 image.superBlock
  let dev := writeBlock config dev 1 image.zoneMap
  let dev := writeBlock config dev (1 + config.numZoneMapBlocks) image.inodeMap
  let dev := writeBlock config dev (Inode.fillInodeBlock config 1) image.inodeBlock
  writeBlock config dev (mkfsZoneBlock config 1) image.rootContent

end Aufs
