import Aufs.Kern.Bitmap
import Aufs.Lib.WordBits

/-! The bit operations of `kern/minix.h`, which the allocators use. They are one of three sets,
chosen when the kernel is configured: on words of the host, on words of a big-endian host by 16-bit
units, or on bytes. -/

namespace Aufs
open Bytes Word

/-- The machine: its byte order, and how many bytes an `unsigned long` has. -/
structure Host where
  order : ByteOrder
  long : Nat
  deriving DecidableEq, Repr

inductive MinixConfig where
  | nativeEndian
  | bigEndian16BitIndexed
  | littleEndian
  deriving DecidableEq, Repr

/-- Which set is compiled under `CONFIG_MINIX_FS_NATIVE_ENDIAN` and
`CONFIG_MINIX_FS_BIG_ENDIAN_16BIT_INDEXED`. Both together are an `#error`. -/
def minixConfig : Bool → Bool → Option MinixConfig
  | true, true => none
  | true, false => some .nativeEndian
  | false, true => some .bigEndian16BitIndexed
  | false, false => some .littleEndian

/-- `ffz`: the number of the first clear bit. -/
def ffz (word : Nat) : Nat := (List.range 64).findIdx fun k => !word.testBit k

/-- The loop of the 16-bit `minix_find_first_zero_bit` from unit `p` on, which ends behind `n`
units at the latest. -/
def minixFindLoop16 (order : ByteOrder) (m : Mem) : Nat → Nat → Nat
  | 0, p => p <<< 4
  | n + 1, p =>
    let num := getWord order m (2 * p) 2
    if num = 0xffff then minixFindLoop16 order m n (p + 1) else (p <<< 4) + ffz num

/-- The operations of one set that the allocators use. -/
structure MapOps where
  findFirstZeroBit : Mem → Nat → Nat
  setBit : Nat → Mem → Mem
  testAndSetBit : Nat → Mem → Bool × Mem
  testBit : Nat → Mem → Bool

/-- The sets of `minix.h`. In the 16-bit one a size below 16 makes the counter of the loop wrap. -/
def MinixConfig.ops (host : Host) : MinixConfig → MapOps
  | nativeEndian =>
    { findFirstZeroBit := fun m size => findZeroBit host.order host.long m 0 size
      setBit := fun nr m => setWordBit host.order host.long m nr
      testAndSetBit := fun nr m =>
        (wordBit host.order host.long m nr, setWordBit host.order host.long m nr)
      testBit := fun nr m => wordBit host.order host.long m nr }
  | bigEndian16BitIndexed =>
    { findFirstZeroBit := fun m size =>
        if size = 0 then 0
        else minixFindLoop16 host.order m (if size >>> 4 = 0 then 2 ^ 32 else size >>> 4) 0
      setBit := fun nr m => setWordBit host.order host.long m (nr ^^^ 16)
      testAndSetBit := fun nr m =>
        (wordBit host.order host.long m (nr ^^^ 16),
          setWordBit host.order host.long m (nr ^^^ 16))
      testBit := fun nr m => (getWord host.order m (2 * (nr >>> 4)) 2).testBit (nr &&& 15) }
  | littleEndian =>
    { findFirstZeroBit := minixFindFirstZeroBit
      setBit := minixSetBit
      testAndSetBit := fun nr m => (bit m nr, minixSetBit nr m)
      testBit := fun nr m => bit m nr }

namespace MapOps

/-- The loop of `aufs_new_zone` over the `n` map blocks from `i` on. -/
def aufsNewZoneLoop (ops : MapOps) (sbi : AufsSuperBlock) (bitsPerBlock : Nat) :
    Nat → Nat → MapBlocks → Int × MapBlocks
  | 0, _, zmap => (0, zmap)
  | n + 1, i, zmap =>
    let j := ops.findFirstZeroBit (zmap i) bitsPerBlock
    if j < bitsPerBlock then
      let zmap := Function.update zmap i (ops.setBit j (zmap i))
      let j := i32 (j + i * bitsPerBlock)
      if j < 0 then (0, zmap) else (sbi.zoneBlock j.toNat, zmap)
    else ops.aufsNewZoneLoop sbi bitsPerBlock n (i + 1) zmap

/-- `aufs_new_zone` -/
def aufsNewZone (ops : MapOps) (sb : Sb) (zmap : MapBlocks) : Int × MapBlocks :=
  ops.aufsNewZoneLoop sb.sbi (8 * sb.sBlocksize) sb.sbi.asbZoneMapBlocks 0 zmap

/-- The search of `aufs_new_inode`. -/
def aufsNewInodeSearch (ops : MapOps) (bitsPerBlock : Nat) :
    Nat → Nat → MapBlocks → Option (Nat × Nat)
  | 0, _, _ => none
  | n + 1, i, imap =>
    let j := ops.findFirstZeroBit (imap i) bitsPerBlock
    if j < bitsPerBlock then some (i, j) else ops.aufsNewInodeSearch bitsPerBlock n (i + 1) imap

/-- `aufs_new_inode` -/
def aufsNewInode (ops : MapOps) (task : Task) (sb : Sb) (imap : MapBlocks)
    (new : Option AufsInode) (dir : AufsInode) (mode : Nat) : Except Errno AufsInode × MapBlocks :=
  let bitsPerBlock := 8 * sb.sBlocksize
  match new with
  | none => (.error .enomem, imap)
  | some inode =>
    match ops.aufsNewInodeSearch bitsPerBlock sb.sbi.asbInodeMapBlocks 0 imap with
    | none => (.error .enospc, imap)
    | some (i, j) =>
      let (old, block) := ops.testAndSetBit j (imap i)
      let imap := Function.update imap i block
      if old then (.error .enospc, imap)
      else
        let j := j + i * bitsPerBlock
        if j = 0 then (.error .enospc, imap)
        else (.ok (initInode task inode dir mode j), imap)

end MapOps
end Aufs
