import Aufs.Mkfs.BlocksCache

/-! `main` of `user/mkfs.cpp`, and the classes of `user/format.cpp` as they work through the block
cache: an object holds the addresses of its blocks, its members change the data of the block, and
its end gives up its handles. -/

namespace Aufs
open Bytes Word

namespace BlocksCache

/-- `Block::Data` of the block at `addr`. -/
def data (s : BlocksCache) (addr : Nat) : Mem := (s.blocks addr).mData

/-- The data of the block after it was changed in place. -/
def setData (s : BlocksCache) (addr : Nat) (m : Mem) : BlocksCache :=
  { s with blocks := Function.update s.blocks addr { s.blocks addr with mData := m } }

end BlocksCache

/-- An object of class `Inode`; `mRaw` is the offset of the slot in the block. -/
structure InodeObject where
  mInode : Nat
  mBlock : Nat
  mRaw : Nat

/-- `Formatter` with its `SuperBlock`. -/
structure Formatter where
  mCache : BlocksCache
  mSuperBlock : Nat
  mZoneMap : Nat
  mInodeMap : Nat

section
variable (env : MkfsEnv) (config : Configuration)

/-- The constructor of `Inode`. -/
def InodeObject.make (cache : BlocksCache) (no : Nat) : InodeObject × BlocksCache :=
  let (block, cache) := cache.getBlock env config (Inode.fillInodeBlock config no)
  let raw := Inode.fillInodeOffset config no
  let cache := cache.setData block (Inode.setCreateTime (cache.data block) raw env.time)
  ({ mInode := no, mBlock := block, mRaw := raw }, cache)

namespace Formatter

/-- The constructor. `SuperBlock` takes its three blocks and fills them. -/
def make (dev : Device) : Option Formatter := do
  let cache := BlocksCache.make dev
  let (superBlock, cache) := cache.getBlock env config 0
  let (zoneMap, cache) := cache.getBlock env config 1
  let (inodeMap, cache) := cache.getBlock env config (1 + config.numZoneMapBlocks)
  let cache := cache.setData zoneMap (← SuperBlock.fillZoneMap config (cache.data zoneMap))
  let cache := cache.setData inodeMap (← SuperBlock.fillInodeMap config (cache.data inodeMap))
  let cache := cache.setData superBlock (SuperBlock.fillSuper config (cache.data superBlock))
  return { mCache := cache, mSuperBlock := superBlock, mZoneMap := zoneMap, mInodeMap := inodeMap }

/-- `MkRootDir`. The asserted calls of the allocators are made, and both must give 1. -/
def mkRootDir (fuel : Nat) (f : Formatter) : Option (InodeObject × Formatter) := do
  let bytes := 2 * AUFS_DIR_SIZE
  let numBlocks := u32 (bytes + config.zoneSize - 1) / config.zoneSize
  let (ino, inodeMap) ← (SuperBlock.allocateInode config (f.mCache.data f.mInodeMap)).toOption
  let cache := f.mCache.setData f.mInodeMap inodeMap
  guard (ino = 1)
  let (inode, cache) := InodeObject.make env config cache 1
  let allocated ← SuperBlock.allocateZones fuel config (cache.data f.mZoneMap) numBlocks
  let (zone, zoneMap) ← allocated.toOption
  let cache := cache.setData f.mZoneMap zoneMap
  guard (zone = 1)
  let block := mkfsZoneBlock config 1
  let raw := cache.data inode.mBlock
  let raw := Inode.setFirstBlock raw inode.mRaw block
  let raw := Inode.clearAllOtherZones raw inode.mRaw
  let raw := Inode.setBlocksCount raw inode.mRaw numBlocks
  let raw := Inode.setSize raw inode.mRaw (2 * AUFS_DIR_SIZE)
  let raw := Inode.setUid raw inode.mRaw env.uid
  let raw := Inode.setGid raw inode.mRaw env.gid
  let raw := Inode.setMode raw inode.mRaw (S_IFDIR + 0o755)
  let raw := Inode.setCreateTime raw inode.mRaw env.time
  let cache := cache.setData inode.mBlock raw
  let (rootContent, cache) := cache.getBlock env config block
  let cache := cache.setData rootContent (rootDirContent (cache.data rootContent))
  return (inode, { f with mCache := cache.release rootContent })

/-- `SetRootInode` -/
def setRootInode (f : Formatter) (inode : InodeObject) : Formatter :=
  { f with
    mCache := f.mCache.setData f.mSuperBlock
      (SuperBlock.setRootInode (f.mCache.data f.mSuperBlock) inode.mInode) }

/-- The device after the members are destroyed, `m_super` before `m_cache`. -/
def destroy (f : Formatter) : Device :=
  (((f.mCache.release f.mInodeMap).release f.mZoneMap).release f.mSuperBlock).destroy config

/-- The life of the object `format` of `main`. The inode goes at the end of its statement. -/
def run (fuel : Nat) (dev : Device) : Option Device := do
  let format ← make env config dev
  let (inode, format) ← mkRootDir env config fuel format
  let format := format.setRootInode inode
  let format := { format with mCache := format.mCache.release inode.mBlock }
  return format.destroy config

end Formatter

end

/-- The device files that can be opened, by name. They keep their size, and what is written past the
end is lost. -/
abbrev Disks := String → Option Device

def Disks.files (disks : Disks) : Files := fun name => (disks name).map Device.size

/-- `main`: the exit status, and the files afterwards. There is no result when the process is
killed, by a division by zero, a failed assertion or an exception that leaves a `noexcept`
function, or when a loop is still running after `fuel` rounds. A device that cannot be opened
reads as zeros and takes no write. -/
def mkfsMain (env : MkfsEnv) (fuel : Nat) (disks : Disks) (argv : List String) :
    Option (Nat × Disks) :=
  match parseArgs disks.files.deviceSize argv with
  | .error (.exception _) => some (1, disks)
  | .error .divisionByZero => none
  | .ok config => do
    let dev := (disks config.device).getD { size := 0, bytes := fun _ => 0 }
    let dev ← Formatter.run env config fuel dev
    return (0, Function.update disks config.device ((disks config.device).map fun _ => dev))

end Aufs
