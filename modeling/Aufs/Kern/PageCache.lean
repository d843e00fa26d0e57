import Aufs.Kern.Dir
import Aufs.Kern.File

/-! File data through the page cache: `minix_write_begin`, `aufs_readpage` and `aufs_writepage` of
`kern/inode.c` with the generic code between them and the device, and `minix_setattr` of
`kern/file.c` with `truncate_setsize`.

What the module does is `aufs_get_block`, `minix_write_failed` and the size change. The rest is an
assumption about the kernel: what `__block_write_begin`, `block_read_full_page`,
`block_write_full_page`, `generic_write_end` and `truncate_pagecache` do to the buffers of a page,
which blocks are written back and evicted, and that a step has the block to itself.

The generic code works through a read or a write buffer by buffer and holds no lock on the rest of
the file in between, so a step handles one block. It would zero a block that `get_block` leaves
unmapped or flags as new, but `aufs_get_block` does neither: a block that is not cached is read from
the device. -/

namespace Aufs
open Bytes Word

/-- A block in the page cache, memory by offset in the block. It is mapped once `aufs_get_block` has
found it a place on the device. -/
structure CachedBlock where
  bytes : Mem
  dirty : Bool
  mapped : Bool

/-- `zero_user_segment` from offset `off` on. -/
def CachedBlock.zeroFrom (buf : CachedBlock) (off : Nat) : CachedBlock :=
  { buf with bytes := fun k => if k < off then buf.bytes k else 0 }

/-- A block that starts `start` bytes into the file, in a page that stays when the file is cut to
`size`: what lies past `size` is zeroed, and the buffer of a block wholly past it is discarded. -/
def CachedBlock.truncate (buf : CachedBlock) (start size : Nat) : CachedBlock :=
  let buf := buf.zeroFrom (size - start)
  if size ≤ start then { buf with dirty := false, mapped := false } else buf

/-- `generic_write_end` on inode `ino`. -/
def FileSys.writeEnd (s : FileSys) (ino pos copied : Nat) : FileSys :=
  { s with
    files := Function.update s.files ino ((s.files ino).map (genericWriteEnd · pos copied)) }

/-- The file system, and the cached blocks of each inode by file block. -/
structure PageCache where
  fs : FileSys
  cache : Nat → Nat → Option CachedBlock

namespace PageCache

def putBlock (s : PageCache) (ino iblock : Nat) (buf : Option CachedBlock) : PageCache :=
  { s with cache := Function.update s.cache ino (Function.update (s.cache ino) iblock buf) }

/-- `truncate_pagecache`: pages wholly past `size` are dropped, the rest of the page at `size` is
zeroed. Nothing is written. -/
def truncatePagecache (sb : Sb) (s : PageCache) (ino size : Nat) : PageCache :=
  { s with
    cache := Function.update s.cache ino fun iblock =>
      if size ≤ iblock * sb.sBlocksize / PAGE_SIZE * PAGE_SIZE then none
      else (s.cache ino iblock).map (·.truncate (iblock * sb.sBlocksize) size) }

/-- A block through `aufs_get_block`, and what is on the device there; no content when the call or
the device failed. -/
def readBlock (sb : Sb) (behind : Nat → Nat) (s : PageCache) (ino iblock : Nat) (create : Bool) :
    Option (Option Mem × PageCache) := do
  let (ret, fs) ← s.fs.getBlock sb behind ino iblock create
  match ret with
  | .error _ => return (none, { s with fs })
  | .ok block =>
    if fs.dev.HasBlock sb.sBlocksize block then
      return (some fun k => fs.dev.bytes (block * sb.sBlocksize + k), { s with fs })
    else return (none, { s with fs })

/-- The cached block, or one that `aufs_readpage` brings in. -/
def loadBlock (sb : Sb) (behind : Nat → Nat) (s : PageCache) (ino iblock : Nat) (create : Bool) :
    Option (Option CachedBlock × PageCache) :=
  match s.cache ino iblock with
  | some buf => some (some buf, s)
  | none => do
    let (bytes, s) ← s.readBlock sb behind ino iblock create
    match bytes with
    | none => return (none, s)
    | some bytes =>
      return (some { bytes, dirty := false, mapped := true },
        s.putBlock ino iblock (some { bytes, dirty := false, mapped := true }))

/-- `aufs_readpage` on one block of a page that starts below `i_size`. A block past `i_size` is
zeroed without a call of `aufs_get_block` and stays unmapped. -/
def readpage (sb : Sb) (behind : Nat → Nat) (s : PageCache) (ino iblock : Nat) :
    Option PageCache := do
  let inode ← s.fs.files ino
  guard (iblock * sb.sBlocksize / PAGE_SIZE * PAGE_SIZE < inode.iSize)
  if iblock * sb.sBlocksize < inode.iSize then
    let (_, s) ← s.loadBlock sb behind ino iblock false
    return s
  else
    match s.cache ino iblock with
    | some _ => return s
    | none =>
      return s.putBlock ino iblock (some { bytes := fun _ => 0, dirty := false, mapped := false })

/-- `minix_write_failed` -/
def minixWriteFailed (sb : Sb) (s : PageCache) (ino endPos : Nat) : PageCache :=
  match s.fs.files ino with
  | none => s
  | some inode => if endPos > inode.iSize then s.truncatePagecache sb ino inode.iSize else s

/-- `minix_write_begin` for `len` bytes in one block. A block that is not mapped is mapped first,
and one that is not cached is read unless all of it will be written. -/
def minixWriteBegin (sb : Sb) (behind : Nat → Nat) (s : PageCache) (ino pos len : Nat) :
    Option (Option CachedBlock × PageCache) := do
  let iblock := pos / sb.sBlocksize
  match s.cache ino iblock with
  | none =>
    if len = sb.sBlocksize then do
      let (ret, fs) ← s.fs.getBlock sb behind ino iblock true
      match ret with
      | .error _ => return (none, PageCache.minixWriteFailed sb { s with fs } ino (pos + len))
      | .ok _ =>
        return (some { bytes := fun _ => 0, dirty := false, mapped := true }, { s with fs })
    else do
      let (buf, s) ← s.loadBlock sb behind ino iblock true
      match buf with
      | none => return (none, s.minixWriteFailed sb ino (pos + len))
      | some buf => return (some buf, s)
  | some buf =>
    if buf.mapped then return (some buf, s)
    else do
      let (ret, fs) ← s.fs.getBlock sb behind ino iblock true
      match ret with
      | .error _ => return (none, PageCache.minixWriteFailed sb { s with fs } ino (pos + len))
      | .ok _ => return (some { buf with mapped := true }, { s with fs })

/-- A write of `chunk`, which lies in one block, up to `generic_write_end`; how many bytes went
in. -/
def write (sb : Sb) (behind : Nat → Nat) (s : PageCache) (ino pos : Nat) (chunk : List Byte) :
    Option (Nat × PageCache) := do
  let (buf, s) ← s.minixWriteBegin sb behind ino pos chunk.length
  match buf with
  | none => return (0, s)
  | some buf =>
    return (chunk.length,
      { s with fs := s.fs.writeEnd ino pos chunk.length }.putBlock ino (pos / sb.sBlocksize)
        (some { buf with bytes := poke buf.bytes (pos % sb.sBlocksize) chunk, dirty := true }))

/-- A read of `n` bytes in one block, as far as `i_size`; no bytes after an I/O error. -/
def read (sb : Sb) (behind : Nat → Nat) (s : PageCache) (ino pos n : Nat) :
    Option (Option (List Byte) × PageCache) := do
  let inode ← s.fs.files ino
  let n := min n (inode.iSize - pos)
  if n = 0 then return (some [], s)
  else
    let (buf, s) ← s.loadBlock sb behind ino (pos / sb.sBlocksize) false
    return (buf.map fun buf => peek buf.bytes (pos % sb.sBlocksize) n, s)

/-- `aufs_writepage` on one dirty block: what lies past `i_size` is zeroed, and a block wholly past
it is not written. A block that is mapped is found where it was. -/
def writepage (sb : Sb) (behind : Nat → Nat) (s : PageCache) (ino iblock : Nat) :
    Option PageCache := do
  let inode ← s.fs.files ino
  let buf ← s.cache ino iblock
  guard buf.dirty
  let buf := { buf.zeroFrom (inode.iSize - iblock * sb.sBlocksize) with dirty := false }
  if iblock * sb.sBlocksize < inode.iSize then
    let (ret, fs) ← s.fs.getBlock sb behind ino iblock true
    match ret with
    | .error _ => return { s with fs }.putBlock ino iblock (some buf)
    | .ok block =>
      if fs.dev.HasBlock sb.sBlocksize block then
        let fs := { fs with
          dev := fs.dev.write (block * sb.sBlocksize) (peek buf.bytes 0 sb.sBlocksize) }
        return { s with fs }.putBlock ino iblock (some buf)
      else return { s with fs }.putBlock ino iblock (some buf)
  else return s.putBlock ino iblock (some buf)

/-- A clean block leaves the cache. -/
def evict (s : PageCache) (ino iblock : Nat) : Option PageCache := do
  let buf ← s.cache ino iblock
  guard (buf.dirty = false)
  return s.putBlock ino iblock none

/-- `minix_setattr`, with `i_size` before and after. -/
def setattr (sb : Sb) (s : PageCache) (ino : Nat) (prepared : Except Errno Unit) (attr : Iattr) :
    Option (Except Errno Unit × Nat × Nat × PageCache) := do
  let inode ← s.fs.files ino
  let (ret, inode') := minixSetattr prepared inode attr
  let s' := { s with fs := { s.fs with files := Function.update s.fs.files ino (some inode') } }
  return (ret, inode.iSize, inode'.iSize,
    if inode'.iSize ≠ inode.iSize then s'.truncatePagecache sb ino inode'.iSize else s')

end PageCache

inductive PageOp where
  | newInode (task : Task) (leftover : Fin ZONE_PTR_IN_INODE_NUM → Nat) (dir : AufsInode)
    (mode : Nat)
  | write (ino pos : Nat) (chunk : List Byte)
  | read (ino pos n : Nat)
  | readpage (ino iblock : Nat)
  | writepage (ino iblock : Nat)
  | evict (ino iblock : Nat)
  | setattr (ino : Nat) (prepared : Except Errno Unit) (attr : Iattr)

inductive PageOut where
  | created (ret : Except Errno Nat)
  | written (n : Nat)
  | bytes (bytes : Option (List Byte))
  | done
  | sized (ret : Except Errno Unit) (old new : Nat)

/-- One operation. A chunk lies in one block. -/
inductive PageStep (sb : Sb) (behind : Nat → Nat) : PageCache → PageOp → PageOut → PageCache → Prop
  | newInode {s task leftover dir mode ret fs} :
    s.fs.exec sb behind (.newInode task leftover dir mode) = some (.created ret, fs) →
    PageStep sb behind s (.newInode task leftover dir mode) (.created ret) { s with fs }
  | write {s ino pos chunk n s'} : 0 < chunk.length →
    pos % sb.sBlocksize + chunk.length ≤ sb.sBlocksize →
    s.write sb behind ino pos chunk = some (n, s') →
    PageStep sb behind s (.write ino pos chunk) (.written n) s'
  | read {s ino pos n bytes s'} : pos % sb.sBlocksize + n ≤ sb.sBlocksize →
    s.read sb behind ino pos n = some (bytes, s') →
    PageStep sb behind s (.read ino pos n) (.bytes bytes) s'
  | readpage {s ino iblock s'} : s.readpage sb behind ino iblock = some s' →
    PageStep sb behind s (.readpage ino iblock) .done s'
  | writepage {s ino iblock s'} : s.writepage sb behind ino iblock = some s' →
    PageStep sb behind s (.writepage ino iblock) .done s'
  | evict {s ino iblock s'} : s.evict ino iblock = some s' →
    PageStep sb behind s (.evict ino iblock) .done s'
  | setattr {s ino prepared attr ret old new s'} :
    s.setattr sb ino prepared attr = some (ret, old, new, s') →
    PageStep sb behind s (.setattr ino prepared attr) (.sized ret old new) s'

end Aufs
