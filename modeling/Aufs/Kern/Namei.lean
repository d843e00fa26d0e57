import Aufs.Kern.Dir

/-! `kern/namei.c`: creating and looking up names.

A call works on the directory it was made on and on the inode it creates; everything else in
memory stays. Where the module runs into `BUG()` or follows a null pointer, the result is `none`
and the rest of the outcome means nothing. -/

namespace Aufs
open Bytes Word

/-- What a call needs: the caller, the memory for the new inode, and the page caches of the
directory and of the new inode. -/
structure NameiEnv where
  task : Task
  new : Option AufsInode
  dir : DirEnv
  inode : DirEnv

/-- After a call: its result, the directory, the maps, the new inode with its page cache (`none`
once `iput` has let go of it), and what the calls of `aufs_new_zone` returned. -/
structure NameiCall where
  ret : Option (Except Errno Unit)
  dir : AufsInode
  content : Mem
  zmap : MapBlocks
  imap : MapBlocks
  inode : Option (AufsInode × Mem)
  newZones : List Int

def inodeIncLinkCount (inode : AufsInode) : AufsInode :=
  markInodeDirty { inode with iNlink := u32 (inode.iNlink + 1) }

def inodeDecLinkCount (inode : AufsInode) : AufsInode :=
  markInodeDirty { inode with iNlink := u32 (inode.iNlink + 2 ^ 32 - 1) }

/-- A change of the link count leaves number, size and zones. -/
theorem nlink_frame (inode : AufsInode) (n : Nat) :
    (markInodeDirty { inode with iNlink := n }).iIno = inode.iIno ∧
      (markInodeDirty { inode with iNlink := n }).iSize = inode.iSize ∧
      (markInodeDirty { inode with iNlink := n }).aiZonePtr = inode.aiZonePtr := ⟨rfl, rfl, rfl⟩

@[simp] theorem inodeIncLinkCount_iIno (inode : AufsInode) :
    (inodeIncLinkCount inode).iIno = inode.iIno := (nlink_frame ..).1

@[simp] theorem inodeIncLinkCount_iSize (inode : AufsInode) :
    (inodeIncLinkCount inode).iSize = inode.iSize := (nlink_frame ..).2.1

@[simp] theorem inodeIncLinkCount_aiZonePtr (inode : AufsInode) :
    (inodeIncLinkCount inode).aiZonePtr = inode.aiZonePtr := (nlink_frame ..).2.2

@[simp] theorem inodeDecLinkCount_aiZonePtr (inode : AufsInode) :
    (inodeDecLinkCount inode).aiZonePtr = inode.aiZonePtr := (nlink_frame ..).2.2

@[simp] theorem inodeDecLinkCount_iIno (inode : AufsInode) :
    (inodeDecLinkCount inode).iIno = inode.iIno := (nlink_frame ..).1

@[simp] theorem inodeDecLinkCount_iSize (inode : AufsInode) :
    (inodeDecLinkCount inode).iSize = inode.iSize := (nlink_frame ..).2.1

/-- A device number that the old 16-bit encoding can hold. -/
def oldValidDev (dev : Nat) : Bool := dev / 2 ^ 20 < 256 ∧ dev % 2 ^ 20 < 256

/-- `add_nondir`. The last reference goes with `iput`, and an inode without links is dropped. -/
def addNondir (order : ByteOrder) (sb : Sb) (env : NameiEnv) (zmap imap : MapBlocks)
    (dir : AufsInode) (content : Mem) (name : List Byte) (inode : AufsInode) (pages : Mem) :
    NameiCall :=
  let link := minixAddLink order sb env.dir zmap dir content name inode.iIno
  { ret := link.ret
    dir := link.dir
    content := link.content
    zmap := link.zmap
    imap := imap
    inode :=
      match link.ret with
      | some (.ok ()) => some (inode, pages)
      | _ => none
    newZones := link.newZone.toList }

/-- `minix_mkdir`; `pages` is what the page cache of the new inode starts from. The result of
`minix_set_inode` is not looked at. -/
def minixMkdir (order : ByteOrder) (sb : Sb) (env : NameiEnv) (zmap imap : MapBlocks)
    (dir : AufsInode) (content : Mem) (name : List Byte) (mode : Nat) (pages : Mem) : NameiCall :=
  let dir := inodeIncLinkCount dir
  match aufsNewInode env.task sb imap env.new dir (S_IFDIR ||| mode) with
  | (.error e, imap) =>
    { ret := some (.error e), dir := inodeDecLinkCount dir, content, zmap, imap, inode := none,
      newZones := [] }
  | (.ok inode, imap) =>
    let inode := inodeIncLinkCount inode
    let made := minixMakeEmpty order sb env.inode zmap inode pages dir.iIno
    match made.ret with
    | some (.ok ()) =>
      let link := minixAddLink order sb env.dir made.zmap dir content name inode.iIno
      { ret := link.ret
        dir :=
          match link.ret with
          | some (.ok ()) => link.dir
          | _ => inodeDecLinkCount link.dir
        content := link.content
        zmap := link.zmap
        imap := imap
        inode :=
          match link.ret with
          | some (.ok ()) => some (made.dir, made.content)
          | _ => none
        newZones := made.newZone.toList ++ link.newZone.toList }
    | _ =>
      { ret := made.ret, dir := inodeDecLinkCount dir, content, zmap := made.zmap, imap,
        inode := none, newZones := made.newZone.toList }

/-- `minix_tmpfile`; `d_tmpfile` takes the link away again. -/
def minixTmpfile (sb : Sb) (env : NameiEnv) (zmap imap : MapBlocks) (dir : AufsInode)
    (content : Mem) (mode : Nat) (pages : Mem) : NameiCall :=
  match aufsNewInode env.task sb imap env.new dir mode with
  | (.error e, imap) =>
    { ret := some (.error e), dir, content, zmap, imap, inode := none, newZones := [] }
  | (.ok inode, imap) =>
    { ret := some (.ok ())
      dir, content, zmap, imap
      inode := some (inodeDecLinkCount (markInodeDirty inode), pages)
      newZones := [] }

/-- `minix_lookup` up to the inode number it finds; 0 makes a negative entry. -/
def minixLookup (order : ByteOrder) (env : DirEnv) (dir : AufsInode) (content : Mem)
    (name : List Byte) : Except Errno Nat :=
  if name.length > AUFS_NAME_LEN then .error .enametoolong
  else .ok (minixInodeByName order env dir content name)

/-- `minix_mknod`. Without an inode the message in front of the test follows a null pointer; an
inode of a rejected type keeps its number and its memory. -/
def minixMknod (order : ByteOrder) (sb : Sb) (env : NameiEnv) (zmap imap : MapBlocks)
    (dir : AufsInode) (content : Mem) (name : List Byte) (mode rdev : Nat) (pages : Mem) :
    NameiCall :=
  if oldValidDev rdev = false then
    { ret := some (.error .einval), dir, content, zmap, imap, inode := none, newZones := [] }
  else
    match aufsNewInode env.task sb imap env.new dir mode with
    | (.error _, imap) =>
      { ret := none, dir, content, zmap, imap, inode := none, newZones := [] }
    | (.ok inode, imap) =>
      match minixSetInode inode with
      | .error e =>
        { ret := some (.error e), dir, content, zmap, imap, inode := some (inode, pages),
          newZones := [] }
      | .ok () =>
        addNondir order sb env zmap imap dir content name (markInodeDirty inode) pages

def minixCreate (order : ByteOrder) (sb : Sb) (env : NameiEnv) (zmap imap : MapBlocks)
    (dir : AufsInode) (content : Mem) (name : List Byte) (mode : Nat) (pages : Mem) : NameiCall :=
  minixMknod order sb env zmap imap dir content name mode 0 pages

end Aufs
