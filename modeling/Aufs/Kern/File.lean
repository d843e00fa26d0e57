import Aufs.Kern.Inode

/-! `kern/file.c`: `minix_setattr`, and reads and writes through the generic file operations. Of
these the module supplies `aufs_get_block`; the rest is what the kernel does around it, one block
at a time. -/

namespace Aufs
open Bytes Word

/-! ## Size changes -/

/-- `s_maxbytes`, which the module leaves at the default. -/
def MAX_NON_LFS : Nat := 2 ^ 31 - 1

/-- `inode_newsize_ok`, as far as the file system limits it. -/
def inodeNewsizeOk (size : Nat) : Except Errno Unit :=
  if size > MAX_NON_LFS then .error .efbig else .ok ()

/-- The part of `struct iattr` that `setattr_copy` looks at, and the new size under
`ATTR_SIZE`. -/
structure Iattr where
  iaSize : Option Nat
  iaMode : Option Nat
  iaUid : Option Nat
  iaGid : Option Nat
  iaCtime : Option Nat

def setattrCopy (inode : AufsInode) (attr : Iattr) : AufsInode :=
  { inode with
    iUid := attr.iaUid.getD inode.iUid
    iGid := attr.iaGid.getD inode.iGid
    iCtime := attr.iaCtime.getD inode.iCtime
    iMode := attr.iaMode.getD inode.iMode }

/-- The size change of `minix_setattr`: no zone is freed. -/
def setattrSize (inode : AufsInode) (attr : Iattr) : Except Errno AufsInode :=
  match attr.iaSize with
  | none => .ok inode
  | some size =>
    if size ≠ inode.iSize then do
      inodeNewsizeOk size
      return { inode with iSize := size }
    else .ok inode

/-- `minix_setattr`; `prepared` is the result of `setattr_prepare`. -/
def minixSetattr (prepared : Except Errno Unit) (inode : AufsInode) (attr : Iattr) :
    Except Errno Unit × AufsInode :=
  match prepared with
  | .error e => (.error e, inode)
  | .ok () =>
    match setattrSize inode attr with
    | .error e => (.error e, inode)
    | .ok inode => (.ok (), markInodeDirty (setattrCopy inode attr))

/-- The inode stays, or gets a size that the file system allows. -/
theorem setattrSize_cases {inode inode' : AufsInode} {attr : Iattr}
    (h : setattrSize inode attr = .ok inode') :
    inode' = inode ∨ ∃ size, attr.iaSize = some size ∧ size ≤ MAX_NON_LFS ∧
      inode' = { inode with iSize := size } := by
  unfold setattrSize at h
  cases hattr : attr.iaSize with
  | none =>
    rw [hattr] at h
    cases h
    exact .inl rfl
  | some size =>
    simp only [hattr, inodeNewsizeOk] at h
    by_cases heq : size = inode.iSize
    · rw [if_neg (not_not.mpr heq)] at h
      cases h
      exact .inl rfl
    · rw [if_pos heq] at h
      by_cases hgt : size > MAX_NON_LFS
      · rw [if_pos hgt] at h
        cases h
      · rw [if_neg hgt] at h
        cases h
        exact .inr ⟨size, rfl, Nat.le_of_not_lt hgt, rfl⟩

/-- `generic_write_end` after `copied` bytes at `pos`. -/
def genericWriteEnd (inode : AufsInode) (pos copied : Nat) : AufsInode :=
  if pos + copied > inode.iSize then markInodeDirty { inode with iSize := pos + copied } else inode

/-! ## Reads and writes -/

/-- What file data depends on: the maps, the inodes in use, and the device. -/
structure FileSys where
  zmap : MapBlocks
  imap : MapBlocks
  files : Nat → Option AufsInode
  dev : Device

/-- Which zone pointer a file block needs. -/
def Sb.zoneIdx (sb : Sb) (iblock : Nat) : Nat := iblock / (sb.sbi.asbZoneSize / sb.sBlocksize)

namespace FileSys

/-- The block of a file, by `aufs_get_block`, if its zone has been assigned. -/
def block (sb : Sb) (behind : Nat → Nat) (s : FileSys) (ino iblock : Nat) : Option Nat := do
  let inode ← s.files ino
  guard (sb.zoneIdx iblock < ZONE_PTR_IN_INODE_NUM ∧ inode.zonePtr behind (sb.zoneIdx iblock) ≠ 0)
  (aufsGetBlock sb s.zmap inode behind iblock sb.sBlocksize false).ret.toOption

/-- Map a block of file `ino`. What happens to a block of the tenth zone or beyond, and when
`aufs_new_zone` returns 0, is not followed here, though `aufsGetBlock` goes on: there is no result,
so runs of these operations are runs in which neither happens. -/
def getBlock (sb : Sb) (behind : Nat → Nat) (s : FileSys) (ino iblock : Nat) (create : Bool) :
    Option (Except Errno Nat × FileSys) := do
  let inode ← s.files ino
  guard (sb.zoneIdx iblock < ZONE_PTR_IN_INODE_NUM)
  let mapped := aufsGetBlock sb s.zmap inode behind iblock sb.sBlocksize create
  guard (mapped.newZone ≠ some 0)
  return (mapped.ret,
    { s with zmap := mapped.zmap, files := Function.update s.files ino (some mapped.inode) })

/-- Write `chunk`, which lies in one block, at `pos`; the flag is false after an I/O error. -/
def writeChunk (sb : Sb) (behind : Nat → Nat) (s : FileSys) (ino pos : Nat) (chunk : List Byte) :
    Option (Bool × FileSys) := do
  let (ret, s) ← s.getBlock sb behind ino (pos / sb.sBlocksize) true
  match ret with
  | .error _ => return (false, s)
  | .ok block =>
    if s.dev.HasBlock sb.sBlocksize block then
      return (true, { s with
        dev := s.dev.write (block * sb.sBlocksize + pos % sb.sBlocksize) chunk
        files := Function.update s.files ino
          ((s.files ino).map (genericWriteEnd · pos chunk.length)) })
    else return (false, s)

/-- `generic_perform_write`: the chunks of `bytes`, at most `fuel` of them, and how many bytes
went out before an error. -/
def writeLoop (sb : Sb) (behind : Nat → Nat) (ino : Nat) :
    Nat → FileSys → Nat → List Byte → Option (Nat × FileSys)
  | 0, s, _, _ => some (0, s)
  | fuel + 1, s, pos, bytes =>
    if bytes = [] then some (0, s)
    else do
      let n := sb.sBlocksize - pos % sb.sBlocksize
      let (ok, s) ← s.writeChunk sb behind ino pos (bytes.take n)
      if ok then do
        let (written, s) ← writeLoop sb behind ino fuel s (pos + (bytes.take n).length)
          (bytes.drop n)
        return ((bytes.take n).length + written, s)
      else return (0, s)

/-- Read `n` bytes, which lie in one block, at `pos`. -/
def readChunk (sb : Sb) (behind : Nat → Nat) (s : FileSys) (ino pos n : Nat) :
    Option (Option (List Byte) × FileSys) := do
  let (ret, s) ← s.getBlock sb behind ino (pos / sb.sBlocksize) false
  match ret with
  | .error _ => return (none, s)
  | .ok block =>
    if s.dev.HasBlock sb.sBlocksize block then
      return (some (peek s.dev.bytes (block * sb.sBlocksize + pos % sb.sBlocksize) n), s)
    else return (none, s)

/-- The chunks of a read of `len` bytes, at most `fuel` of them. -/
def readLoop (sb : Sb) (behind : Nat → Nat) (ino : Nat) :
    Nat → FileSys → Nat → Nat → Option (List Byte × FileSys)
  | 0, s, _, _ => some ([], s)
  | fuel + 1, s, pos, len =>
    if len = 0 then some ([], s)
    else do
      let n := min len (sb.sBlocksize - pos % sb.sBlocksize)
      let (got, s) ← s.readChunk sb behind ino pos n
      match got with
      | none => return ([], s)
      | some bytes => do
        let (rest, s) ← readLoop sb behind ino fuel s (pos + n) (len - n)
        return (bytes ++ rest, s)

end FileSys

inductive FileOp where
  | newInode (task : Task) (leftover : Fin ZONE_PTR_IN_INODE_NUM → Nat) (dir : AufsInode)
    (mode : Nat)
  | getBlock (ino iblock : Nat) (create : Bool)
  | write (ino pos : Nat) (bytes : List Byte)
  | read (ino pos len : Nat)

inductive FileOut where
  | created (ret : Except Errno Nat)
  | mapped (ret : Except Errno Nat)
  | written (n : Nat)
  | bytes (bytes : List Byte)

/-- One operation. A read stops at `i_size`, as the generic code does; a write has no chunk more
than it has bytes. -/
def FileSys.exec (sb : Sb) (behind : Nat → Nat) (s : FileSys) : FileOp → Option (FileOut × FileSys)
  | .newInode task leftover dir mode =>
    match aufsNewInode task sb s.imap (some (Aufs.newInode leftover)) dir mode with
    | (.ok inode, imap) =>
      some (.created (.ok inode.iIno),
        { s with imap, files := Function.update s.files inode.iIno (some inode) })
    | (.error e, imap) => some (.created (.error e), { s with imap })
  | .getBlock ino iblock create =>
    (s.getBlock sb behind ino iblock create).map fun r => (.mapped r.1, r.2)
  | .write ino pos bytes =>
    (FileSys.writeLoop sb behind ino bytes.length s pos bytes).map fun r => (.written r.1, r.2)
  | .read ino pos len => do
    let inode ← s.files ino
    let len := min len (inode.iSize - pos)
    (FileSys.readLoop sb behind ino len s pos len).map fun r => (.bytes r.1, r.2)

end Aufs
