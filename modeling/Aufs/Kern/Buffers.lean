import Aufs.Kern.Inode
import Aufs.Lib.BlockCache

/-! The inode table through the buffers of the device (`kern/inode.c`): `V2_minix_update_inode`,
`minix_write_inode` and the load of `aufs_inode_get`.

What the module does is the choice of the buffer and the bytes it puts there. The buffer cache is an
assumption about the kernel: `sb_bread` gives the buffer of a block that is cached and reads any
other, a dirty buffer goes out at any time, one whose write failed is read again from the device,
and a clean one may be taken away. -/

namespace Aufs
open Bytes Word

/-- A device of `size` bytes behind the buffers of its blocks. -/
structure BufferedDevice where
  size : Nat
  blocks : BlockCache Byte

/-- The device itself. -/
def BufferedDevice.dev (s : BufferedDevice) : Device := { size := s.size, bytes := s.blocks.store }

namespace BufferedDevice

/-- A block that is cached, or that the device delivers: `io` says whether it does. -/
def Readable (bs : Nat) (s : BufferedDevice) (io : Bool) (no : Nat) : Prop :=
  (s.blocks.cached no).isSome ∨ io = true ∧ s.dev.HasBlock bs no

instance (bs : Nat) (s : BufferedDevice) (io : Bool) (no : Nat) : Decidable (s.Readable bs io no) :=
  inferInstanceAs (Decidable (_ ∨ _))

/-- `sb_bread` -/
def sbBread (bs : Nat) (s : BufferedDevice) (io : Bool) (no : Nat) :
    Option (Buf Byte × BufferedDevice) :=
  if s.Readable bs io no then
    some ((s.blocks.load bs no).1, { s with blocks := (s.blocks.load bs no).2 })
  else none

/-- A dirty buffer goes to the device. If the write fails the buffer is not up to date any more, and
the next reader gets what the device holds. -/
def submit (bs : Nat) (s : BufferedDevice) (io : Bool) (no : Nat) (bh : Buf Byte) :
    BufferedDevice :=
  if io then { s with blocks := s.blocks.writeBack bs no bh }
  else { s with blocks := s.blocks.put no none }

/-- `V2_minix_update_inode`: the number of the buffer that it leaves dirty, and the buffer. -/
def v2MinixUpdateInode (sb : Sb) (ids : OverflowIds) (s : BufferedDevice) (io : Bool)
    (inode : AufsInode) : Option (Nat × Buf Byte × BufferedDevice) := do
  let (block, offset) ← (minixV2RawInode sb.sbi
    (fun no => (s.sbBread sb.sBlocksize io (u64OfInt no)).isSome) inode.iIno).1
  let no := u64OfInt block
  let (bh, s) ← s.sbBread sb.sBlocksize io no
  let raw := Aufs.v2MinixUpdateInode ids inode fun k => bh.data (offset.toNat + k)
  let bh := { data := poke bh.data offset.toNat (peek raw 0 64), dirty := true }
  return (no, bh, { s with blocks := s.blocks.put no (some bh) })

/-- `minix_write_inode`; `syncAll` stands for `WB_SYNC_ALL`, the other flags for what the device
does. -/
def minixWriteInode (sb : Sb) (ids : OverflowIds) (s : BufferedDevice) (inode : AufsInode)
    (syncAll readOk writeOk : Bool) : Except Errno Unit × BufferedDevice :=
  match s.v2MinixUpdateInode sb ids readOk inode with
  | none => (.error .eio, s)
  | some (no, bh, s) =>
    if syncAll then
      (if writeOk then .ok () else .error .eio, s.submit sb.sBlocksize writeOk no bh)
    else (.ok (), s)

/-- `aufs_inode_get` for an inode that is not in memory. -/
def aufsInodeGet (sb : Sb) (s : BufferedDevice) (io : Bool)
    (leftover : Fin ZONE_PTR_IN_INODE_NUM → Nat) (no : Nat) :
    Except Errno AufsInode × BufferedDevice :=
  match s.sbBread sb.sBlocksize io (aufsInodeBlock sb.sbi no) with
  | none => (.error .eio, s)
  | some (bh, s) =>
    (Aufs.aufsInodeGet leftover no fun k => bh.data (aufsInodeOffset sb.sbi no + k), s)

end BufferedDevice

/-- The device with no buffers in front. -/
def Device.unbuffered (dev : Device) : BufferedDevice :=
  { size := dev.size, blocks := { store := dev.bytes, cached := fun _ => none } }

/-- `minix_write_inode` under `WB_SYNC_ALL`, on a device that works. -/
def Device.writeInode (sb : Sb) (ids : OverflowIds) (dev : Device) (inode : AufsInode) : Device :=
  (dev.unbuffered.minixWriteInode sb ids inode true true true).2.dev

/-- A buffer of a map goes out, to block `no`. -/
def Device.writeMap (sb : Sb) (dev : Device) (no : Nat) (block : Mem) : Device :=
  dev.write (no * sb.sBlocksize) (peek block 0 sb.sBlocksize)

inductive TableOp where
  | writeInode (ids : OverflowIds) (inode : AufsInode) (syncAll readOk writeOk : Bool)
  | inodeGet (no : Nat) (io : Bool) (leftover : Fin ZONE_PTR_IN_INODE_NUM → Nat)
  | writeBuffer (no : Nat) (io : Bool)
  | reclaim (no : Nat)

inductive TableOut where
  | wrote (ret : Except Errno Unit)
  | got (ret : Except Errno AufsInode)
  | done

/-- The slot of inode `ino` ends inside its block, and the block has a number that fits the `int` of
`minix_V2_raw_inode`. For any other inode the module works past the buffer, which is not
followed. -/
def Sb.HasSlot (sb : Sb) (ino : Nat) : Prop :=
  aufsInodeBlock sb.sbi ino < 2 ^ 31 ∧ aufsInodeOffset sb.sbi ino + 64 ≤ sb.sBlocksize

/-- One operation: a call of the module on an inode that has a slot, the flusher at a dirty buffer,
or a clean buffer that is taken away. -/
inductive TableStep (sb : Sb) :
    BufferedDevice → TableOp → TableOut → BufferedDevice → Prop
  | writeInode {s ids inode syncAll readOk writeOk ret s'} : sb.HasSlot inode.iIno →
    s.minixWriteInode sb ids inode syncAll readOk writeOk = (ret, s') →
    TableStep sb s (.writeInode ids inode syncAll readOk writeOk) (.wrote ret) s'
  | inodeGet {s no io leftover ret s'} : sb.HasSlot no →
    s.aufsInodeGet sb io leftover no = (ret, s') →
    TableStep sb s (.inodeGet no io leftover) (.got ret) s'
  | writeBuffer {s no io bh} : s.blocks.cached no = some bh → bh.dirty = true →
    TableStep sb s (.writeBuffer no io) .done (s.submit sb.sBlocksize io no bh)
  | reclaim {s no bh} : s.blocks.cached no = some bh → bh.dirty = false →
    TableStep sb s (.reclaim no) .done { s with blocks := s.blocks.put no none }

end Aufs
