import Aufs.Kern.Inode

/-! Mounting (`aufs_super_block_read` and `aufs_fill_sb` in `kern/super.c`): the super block and the
maps are read in the block size that the device has before the mount, the root inode in the one
that the super block asks for. -/

namespace Aufs
open Bytes Word

/-- What a mount meets: the block size in force before it and the smallest one the device takes,
which calls of `kzalloc` and `sb_bread` succeed, counted from 0, whether `iget_locked` and
`d_make_root` find memory, and what the memory of the root inode held before. -/
structure MountEnv where
  blockSize : Nat
  logicalBlockSize : Nat
  kzalloc : Nat → Bool
  sbBread : Nat → Bool
  igetLocked : Bool
  dMakeRoot : Bool
  leftover : Fin ZONE_PTR_IN_INODE_NUM → Nat

/-- `struct buffer_head`: `bSize` bytes of the device, from block `bBlocknr` of that size on. -/
structure Buffer where
  bBlocknr : Nat
  bSize : Nat
  bData : Mem

/-- The `call`-th call of `sb_bread`, for block `no` in blocks of `size` bytes. -/
def sbBread (env : MountEnv) (dev : Device) (call size no : Nat) : Option Buffer :=
  if env.sbBread call = true ∧ dev.HasBlock size no then
    some { bBlocknr := no, bSize := size, bData := fun k => dev.bytes (no * size + k) }
  else none

/-- Where a mount leaves the code's own memory: it reads a field through the null pointer that
`aufs_super_block_read` returned, or an entry behind the array of the maps' buffers. What the
machine does then is not followed. -/
inductive MountFault where
  | nullSuperBlock
  | pastMaps
  deriving DecidableEq, Repr

/-- `struct aufs_super_block` with the buffers of its maps, `s_zmap` and `s_imap`. -/
structure SuperBlockMaps where
  asb : AufsSuperBlock
  sZmap : List Buffer
  sImap : List Buffer

/-- The loop of `aufs_super_block_read` over the `n` blocks of a map from `block` on. Every call
of `sb_bread` so far was for the next block, so its number is the number of the call. -/
def readMapBlocks (env : MountEnv) (dev : Device) : Nat → Nat → Option (List Buffer)
  | 0, _ => some []
  | n + 1, block => do
    let bh ← sbBread env dev block env.blockSize block
    let bhs ← readMapBlocks env dev n (block + 1)
    return bh :: bhs

/-- `minix_set_bit(0, bh->b_data)` -/
def Buffer.setFirstBit (bh : Buffer) : Buffer := { bh with bData := minixSetBit 0 bh.bData }

/-- `minix_set_bit(0, map[i]->b_data)` -/
def setFirstBit (map : List Buffer) (i : Nat) : Except MountFault (List Buffer) :=
  match map[i]? with
  | none => .error .pastMaps
  | some bh => .ok (map.set i bh.setFirstBit)

/-- `aufs_super_block_read`, where `none` is the null pointer; and for every use of `s_zmap[0]` or
`s_imap[0]` how many blocks the map has. The two maps are parts of one array, so `s_zmap[0]` is
`s_imap[0]` when there are no zone map blocks. The maps are used before the magic number is looked
at. -/
def aufsSuperBlockReadUses (env : MountEnv) (dev : Device) :
    Except MountFault (Option SuperBlockMaps) × List Nat :=
  if env.kzalloc 0 = false then (.ok none, [])
  else
    match sbBread env dev 0 env.blockSize 0 with
    | none => (.ok none, [])
    | some bh =>
      let asb := aufsSuperBlockFill .zero bh.bData
      if env.kzalloc 1 = false then (.ok none, [])
      else
        match readMapBlocks env dev asb.asbZoneMapBlocks 1 with
        | none => (.ok none, [])
        | some zmap =>
          match readMapBlocks env dev asb.asbInodeMapBlocks (1 + asb.asbZoneMapBlocks) with
          | none => (.ok none, [])
          | some imap =>
            match setFirstBit (zmap ++ imap) 0 with
            | .error fault => (.error fault, [asb.asbZoneMapBlocks])
            | .ok map =>
              let uses := [asb.asbZoneMapBlocks, asb.asbInodeMapBlocks]
              match setFirstBit map asb.asbZoneMapBlocks with
              | .error fault => (.error fault, uses)
              | .ok map =>
                if asb.asbMagic ≠ AUFS_MAGIC then (.ok none, uses)
                else (.ok (some { asb, sZmap := map.take asb.asbZoneMapBlocks,
                                  sImap := map.drop asb.asbZoneMapBlocks }), uses)

def aufsSuperBlockRead (env : MountEnv) (dev : Device) :
    Except MountFault (Option SuperBlockMaps) :=
  (aufsSuperBlockReadUses env dev).1

/-- `sb_set_blocksize` takes powers of two from 512 bytes to a page, not below the device's own
block size. -/
def sbSetBlocksize (env : MountEnv) (size : Nat) : Bool :=
  (size = 512 ∨ size = 1024 ∨ size = 2048 ∨ size = 4096) ∧ env.logicalBlockSize ≤ size

/-- A mounted file system. -/
structure MountedFs where
  sb : Sb
  sZmap : List Buffer
  sImap : List Buffer
  root : AufsInode

/-- `aufs_fill_sb` behind the call of `aufs_super_block_read`. -/
def fillSbFrom (env : MountEnv) (dev : Device) (maps : SuperBlockMaps) :
    Except Errno MountedFs :=
  let asb := maps.asb
  let blocksize := if asb.asbZoneSize > 4096 then 4096 else asb.asbZoneSize
  if sbSetBlocksize env blocksize = false then .error .einval
  else if env.igetLocked = false then .error .enomem
  else
    match sbBread env dev (1 + asb.asbZoneMapBlocks + asb.asbInodeMapBlocks) blocksize
      (aufsInodeBlock asb asb.asbRootInode) with
    | none => .error .eio
    | some bh =>
      match aufsInodeGet env.leftover asb.asbRootInode
        (fun k => bh.bData (aufsInodeOffset asb asb.asbRootInode + k)) with
      | .error e => .error e
      | .ok root =>
        if env.dMakeRoot = false then .error .enomem
        else .ok { sb := { sbi := asb, sBlocksize := blocksize }, sZmap := maps.sZmap,
                   sImap := maps.sImap, root }

/-- `aufs_fill_sb`. The zone size is read before the pointer is tested. -/
def mountAufsFillSb (env : MountEnv) (dev : Device) : Except MountFault (Except Errno MountedFs) :=
  match aufsSuperBlockRead env dev with
  | .error fault => .error fault
  | .ok none => .error .nullSuperBlock
  | .ok (some maps) => .ok (fillSbFrom env dev maps)

end Aufs
