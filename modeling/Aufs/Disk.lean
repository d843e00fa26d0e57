import Aufs.Lib.Bytes

/-! What `mkfs.aufs` and the kernel module share: the constants and the layout of the on-disk
structures (`user/aufs.hpp`, `kern/aufs.h`), and the device itself. All words on disk are
big-endian, except where the kernel stores directory entries (see `Aufs.Kern.Dir`). -/

namespace Aufs
open Bytes

def AUFS_MAGIC : Nat := 0x13131313
def ZONE_PTR_IN_INODE_NUM : Nat := 9
def AUFS_DIR_SIZE : Nat := 64
def AUFS_NAME_LEN : Nat := 60

def be32 (m : Mem) (off : Nat) : Nat := getWord .big m off 4
def be64 (m : Mem) (off : Nat) : Nat := getWord .big m off 8
def putBe32 (m : Mem) (off v : Nat) : Mem := putWord .big m off 4 v
def putBe64 (m : Mem) (off v : Nat) : Mem := putWord .big m off 8 v

/-! ## Offsets in `struct aufs_disk_super_block` -/

def dsbMagic : Nat := 0
def dsbBlockSize : Nat := 4
def dsbRootInode : Nat := 8
def dsbInodeBlocks : Nat := 12
def dsbInodeMapBlocks : Nat := 16
def dsbZoneMapBlocks : Nat := 20
def dsbAlignmentNumBlocks : Nat := 24

/-! ## Offsets in `struct aufs_disk_inode` -/

def diZonePtr (i : Nat) : Nat := 4 * i
def diBlocks : Nat := 36
def diSize : Nat := 40
def diGid : Nat := 44
def diUid : Nat := 48
def diMode : Nat := 52
def diCtime : Nat := 56

/-! ## Offsets in `struct aufs_disk_dir_entry` -/

def ddeInode : Nat := 0
def ddeName : Nat := 4

/-- The bytes of an ASCII string. -/
def ascii (s : String) : List Byte := s.toList.map fun c => BitVec.ofNat 8 c.toNat

/-! ## File types -/

def S_IFMT : Nat := 0o170000
def S_IFDIR : Nat := 0o040000
def S_IFREG : Nat := 0o100000
def S_IFLNK : Nat := 0o120000

def sIsDir (mode : Nat) : Bool := mode &&& S_IFMT = S_IFDIR
def sIsReg (mode : Nat) : Bool := mode &&& S_IFMT = S_IFREG
def sIsLnk (mode : Nat) : Bool := mode &&& S_IFMT = S_IFLNK

/-! ## The device -/

/-- A device of `size` bytes, and of no more: bytes from `size` on are never read or written. A
regular file in its place would grow. -/
structure Device where
  size : Nat
  bytes : Mem

namespace Device

/-- Block `no` of `bs` bytes lies on the device. -/
def HasBlock (dev : Device) (bs no : Nat) : Prop := (no + 1) * bs ≤ dev.size

instance (dev : Device) (bs no : Nat) : Decidable (dev.HasBlock bs no) :=
  inferInstanceAs (Decidable ((no + 1) * bs ≤ dev.size))

/-- The device with `bs` stored from byte address `a` on. -/
def write (dev : Device) (a : Nat) (bs : List Byte) : Device :=
  { dev with bytes := poke dev.bytes a bs }

end Device

/-! ## Words at fixed offsets -/

@[simp] theorem be32_putBe32_same : be32 (putBe32 m off v) off = v % 2 ^ 32 :=
  getWord_putWord_same

theorem be32_congr {m m' : Mem} {off : Nat} (h : ∀ k < 4, m (off + k) = m' (off + k)) :
    be32 m off = be32 m' off := by
  rw [be32, be32, getWord, getWord, peek_congr h]

theorem be64_congr {m m' : Mem} {off : Nat} (h : ∀ k < 8, m (off + k) = m' (off + k)) :
    be64 m off = be64 m' off := by
  rw [be64, be64, getWord, getWord, peek_congr h]

theorem be32_putBe32_ne (h : off' + 4 ≤ off ∨ off + 4 ≤ off') :
    be32 (putBe32 m off v) off' = be32 m off' := getWord_putWord_disjoint h

end Aufs
