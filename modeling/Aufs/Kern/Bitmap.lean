import Aufs.Kern.Super
import Aufs.Lib.BitRow

/-! The allocators of `kern/bitmap.c`. A map is the sequence of its blocks, `s_zmap[i]` or
`s_imap[i]`; its bits are numbered from the first block on. Each search runs under `bitmap_lock`. -/

namespace Aufs
open Bytes Word

/-- The blocks of a map. -/
abbrev MapBlocks := Nat → Mem

def minixFindFirstZeroBit (m : Mem) (size : Nat) : Nat := findBit m false 0 size

def minixSetBit (nr : Nat) (m : Mem) : Mem := setBit m nr true

def integerRoundUpDivision (dividend divisor : Nat) : Nat := (dividend + divisor - 1) / divisor

/-- The first block of the data region as `aufs_new_zone` places it: one zone is added before
rounding up. -/
def AufsSuperBlock.dataBase (sbi : AufsSuperBlock) : Nat :=
  integerRoundUpDivision
    (1 + sbi.asbInodeMapBlocks + sbi.asbZoneMapBlocks + sbi.asbInodeBlocks +
      1 * sbi.asbBlocksPerZone) sbi.asbAlignmentNumBlocks * sbi.asbAlignmentNumBlocks

/-- The block number that `aufs_new_zone` returns for bit `j`, computed in `unsigned long` and
returned as `int`. -/
def AufsSuperBlock.zoneBlock (sbi : AufsSuperBlock) (j : Nat) : Int :=
  i32 (u64 (j * sbi.asbBlocksPerZone + sbi.dataBase))

/-- The loop of `aufs_new_zone` over the `n` map blocks from `i` on. -/
def aufsNewZoneLoop (sbi : AufsSuperBlock) (bitsPerBlock : Nat) :
    Nat → Nat → MapBlocks → Int × MapBlocks
  | 0, _, zmap => (0, zmap)
  | n + 1, i, zmap =>
    let j := minixFindFirstZeroBit (zmap i) bitsPerBlock
    if j < bitsPerBlock then
      let zmap := Function.update zmap i (minixSetBit j (zmap i))
      let j := i32 (j + i * bitsPerBlock)
      -- an index that overflowed leaves the loop with its bit set
      if j < 0 then (0, zmap) else (sbi.zoneBlock j.toNat, zmap)
    else aufsNewZoneLoop sbi bitsPerBlock n (i + 1) zmap

/-- `aufs_new_zone`: the first block of the new zone, or 0, and the zone map. -/
def aufsNewZone (sb : Sb) (zmap : MapBlocks) : Int × MapBlocks :=
  aufsNewZoneLoop sb.sbi (8 * sb.sBlocksize) sb.sbi.asbZoneMapBlocks 0 zmap

/-- The search of `aufs_new_inode`: the map block and the bit in it. -/
def aufsNewInodeSearch (bitsPerBlock : Nat) : Nat → Nat → MapBlocks → Option (Nat × Nat)
  | 0, _, _ => none
  | n + 1, i, imap =>
    let j := minixFindFirstZeroBit (imap i) bitsPerBlock
    if j < bitsPerBlock then some (i, j) else aufsNewInodeSearch bitsPerBlock n (i + 1) imap

/-- What a call takes from the task that makes it. -/
structure Task where
  fsuid : Nat
  fsgid : Nat
  currentTime : Nat
  deriving DecidableEq, Repr

def S_ISGID : Nat := 0o2000

/-- `inode_init_owner` -/
def inodeInitOwner (task : Task) (inode dir : AufsInode) (mode : Nat) : AufsInode :=
  if dir.iMode &&& S_ISGID ≠ 0 then
    { inode with
      iUid := task.fsuid
      iGid := dir.iGid
      iMode := if sIsDir mode then mode ||| S_ISGID else mode }
  else { inode with iUid := task.fsuid, iGid := task.fsgid, iMode := mode }

/-- An inode as `new_inode` returns it. The zone pointers are those of whatever object the slab
held before. -/
def newInode (leftover : Fin ZONE_PTR_IN_INODE_NUM → Nat) : AufsInode where
  aiZonePtr := leftover
  iIno := 0
  iMode := 0
  iSize := 0
  iBlocks := 0
  iUid := 0
  iGid := 0
  iCtime := 0
  iNlink := 1
  iDirty := false

/-- `new` set up with the number `j`, as `aufs_new_inode` returns it. -/
def initInode (task : Task) (new dir : AufsInode) (mode j : Nat) : AufsInode :=
  { inodeInitOwner task new dir mode with
    iIno := j
    iCtime := task.currentTime
    iBlocks := 0
    aiZonePtr := fun _ => 0
    iDirty := true }

/-- `aufs_new_inode`; `new` is the result of `new_inode`. -/
def aufsNewInode (task : Task) (sb : Sb) (imap : MapBlocks) (new : Option AufsInode)
    (dir : AufsInode) (mode : Nat) : Except Errno AufsInode × MapBlocks :=
  let bitsPerBlock := 8 * sb.sBlocksize
  match new with
  | none => (.error .enomem, imap)
  | some inode =>
    match aufsNewInodeSearch bitsPerBlock sb.sbi.asbInodeMapBlocks 0 imap with
    | none => (.error .enospc, imap)
    | some (i, j) =>
      if bit (imap i) j then (.error .enospc, imap)
      else
        let imap := Function.update imap i (minixSetBit j (imap i))
        let j := j + i * bitsPerBlock
        if j = 0 then (.error .enospc, imap)
        else (.ok (initInode task inode dir mode j), imap)

/-- `minix_V2_raw_inode`: the block with the slot of inode `ino` and the offset of the slot in it,
unless there is no such inode or `sb_bread` cannot read the block; and what the call divides by. -/
def minixV2RawInode (sbi : AufsSuperBlock) (sbBread : Int → Bool) (ino : Nat) :
    Option (Int × Int) × List Nat :=
  if ino = 0 then (none, [])
  else
    let block := i32 (aufsInodeBlock sbi ino)
    let offset := i32 (aufsInodeOffset sbi ino)
    (if sbBread block then some (block, offset) else none,
      [sbi.asbInodesInBlock, sbi.asbInodesInBlock])

/-! ## Critical sections -/

/-- How a critical section of `aufs_new_zone` ends: the call goes on to the next map block, returns
a value, or divides by an alignment of zero. -/
inductive ZoneSection where
  | next
  | returned (ret : Int)
  | oops
  deriving DecidableEq, Repr

/-- What `aufs_new_zone` does about map block `i`. -/
def aufsNewZoneSection (sb : Sb) (i : Nat) (zmap : MapBlocks) : ZoneSection × MapBlocks :=
  let bitsPerBlock := 8 * sb.sBlocksize
  let j := minixFindFirstZeroBit (zmap i) bitsPerBlock
  if j < bitsPerBlock then
    let zmap := Function.update zmap i (minixSetBit j (zmap i))
    let j := i32 (j + i * bitsPerBlock)
    if j < 0 then (.returned 0, zmap)
    else if sb.sbi.asbAlignmentNumBlocks = 0 then (.oops, zmap)
    else (.returned (sb.sbi.zoneBlock j.toNat), zmap)
  else (.next, zmap)

/-- Two maps, and how far each call of `aufs_new_zone` has come: the map block it looks at next. -/
structure Alloc where
  zmap : MapBlocks
  imap : MapBlocks
  zoneCalls : Nat → Option Nat

inductive AllocOp where
  | beginZone (t : Nat)
  | zoneSection (t : Nat)
  | newInode (task : Task) (new : Option AufsInode) (dir : AufsInode) (mode : Nat)

inductive AllocOut where
  | running
  | zone (ret : Int)
  | inode (ret : Except Errno AufsInode)
  | oops

/-- One critical section of some call. -/
inductive AllocStep (sb : Sb) : Alloc → AllocOp → AllocOut → Alloc → Prop
  | begin {s t} : s.zoneCalls t = none →
    AllocStep sb s (.beginZone t) .running
      { s with zoneCalls := Function.update s.zoneCalls t (some 0) }
  | next {s t i zmap} : s.zoneCalls t = some i → i < sb.sbi.asbZoneMapBlocks →
    aufsNewZoneSection sb i s.zmap = (.next, zmap) →
    AllocStep sb s (.zoneSection t) .running
      { s with zmap, zoneCalls := Function.update s.zoneCalls t (some (i + 1)) }
  | returned {s t i ret zmap} : s.zoneCalls t = some i → i < sb.sbi.asbZoneMapBlocks →
    aufsNewZoneSection sb i s.zmap = (.returned ret, zmap) →
    AllocStep sb s (.zoneSection t) (.zone ret)
      { s with zmap, zoneCalls := Function.update s.zoneCalls t none }
  | oops {s t i zmap} : s.zoneCalls t = some i → i < sb.sbi.asbZoneMapBlocks →
    aufsNewZoneSection sb i s.zmap = (.oops, zmap) →
    AllocStep sb s (.zoneSection t) .oops
      { s with zmap, zoneCalls := Function.update s.zoneCalls t none }
  | full {s t i} : s.zoneCalls t = some i → sb.sbi.asbZoneMapBlocks ≤ i →
    AllocStep sb s (.zoneSection t) (.zone 0)
      { s with zoneCalls := Function.update s.zoneCalls t none }
  | newInode {s task new dir mode ret imap} :
    aufsNewInode task sb s.imap new dir mode = (ret, imap) →
    AllocStep sb s (.newInode task new dir mode) (.inode ret) { s with imap }

/-! ## What the allocators do -/

@[simp] theorem initInode_iSize (task : Task) (new dir : AufsInode) (mode j : Nat) :
    (initInode task new dir mode j).iSize = new.iSize := by
  simp only [initInode, inodeInitOwner]
  split <;> rfl

/-- Only a directory takes more than the mode it was asked for. -/
theorem initInode_iMode {task : Task} {new dir : AufsInode} (hdir : sIsDir mode = false) :
    (initInode task new dir mode j).iMode = mode := by
  simp only [initInode, inodeInitOwner, hdir, Bool.false_eq_true, if_false]
  split <;> rfl

theorem minixFindFirstZeroBit_lt (h : minixFindFirstZeroBit m size < size) :
    bit m (minixFindFirstZeroBit m size) = false := by
  unfold minixFindFirstZeroBit at *
  exact bit_findBit (by omega)

theorem bit_before_firstZero (h : j < minixFindFirstZeroBit m size) : bit m j = true := by
  have := bit_before_findBit (Nat.zero_le j) h
  simpa using this

theorem minixFindFirstZeroBit_full (h : ¬minixFindFirstZeroBit m size < size) (hj : j < size) :
    bit m j = true := by
  have hlt : j < minixFindFirstZeroBit m size := by omega
  exact bit_before_firstZero hlt

theorem minixFindFirstZeroBit_of_clear (hj : j < size) (h : bit m j = false) :
    minixFindFirstZeroBit m size < size := by
  have := findBit_lt (m := m) (v := false) (Nat.zero_le j) (n := size) (by omega) h
  simpa [minixFindFirstZeroBit] using this

theorem minixFindFirstZeroBit_eq (hj : j < size) (h : bit m j = false)
    (hbefore : ∀ k < j, bit m k = true) : minixFindFirstZeroBit m size = j := by
  have hclear := minixFindFirstZeroBit_lt (minixFindFirstZeroBit_of_clear hj h)
  rcases Nat.lt_trichotomy (minixFindFirstZeroBit m size) j with hlt | heq | hgt
  · rw [hbefore _ hlt] at hclear
    cases hclear
  · exact heq
  · rw [bit_before_firstZero hgt] at h
    cases h

/-- The search finds every bit of every block set, or the first clear bit of the first block
that has one. -/
theorem aufsNewInodeSearch_cases (bits n i : Nat) (imap : MapBlocks) :
    ((∀ k < n, ∀ j < bits, bit (imap (i + k)) j = true) ∧
      aufsNewInodeSearch bits n i imap = none) ∨
    ∃ k < n, ∃ j < bits, bit (imap (i + k)) j = false ∧
      (∀ k' < k, ∀ j' < bits, bit (imap (i + k')) j' = true) ∧
      (∀ j' < j, bit (imap (i + k)) j' = true) ∧
      aufsNewInodeSearch bits n i imap = some (i + k, j) := by
  induction n generalizing i with
  | zero => exact .inl ⟨by omega, rfl⟩
  | succ n ih =>
    rw [aufsNewInodeSearch]
    by_cases h : minixFindFirstZeroBit (imap i) bits < bits
    · refine .inr ⟨0, by omega, minixFindFirstZeroBit (imap i) bits, h,
        minixFindFirstZeroBit_lt h, by omega, fun j' hj' => bit_before_firstZero hj', ?_⟩
      simp only [if_pos h, Nat.add_zero]
    · have hfull : ∀ j < bits, bit (imap i) j = true :=
        fun j hj => minixFindFirstZeroBit_full h hj
      simp only [if_neg h]
      rcases ih (i + 1) with ⟨hall, heq⟩ | ⟨k, hk, j, hj, hclear, hbefore, hlow, heq⟩
      · refine .inl ⟨?_, heq⟩
        intro k hk
        cases k with
        | zero => exact hfull
        | succ k =>
          rw [show i + (k + 1) = i + 1 + k by omega]
          exact hall k (by omega)
      · have hidx : i + (k + 1) = i + 1 + k := by omega
        refine .inr ⟨k + 1, by omega, j, hj, by rwa [hidx], ?_, by rwa [hidx], by rw [hidx, heq]⟩
        intro k' hk'
        cases k' with
        | zero => exact hfull
        | succ k' =>
          rw [show i + (k' + 1) = i + 1 + k' by omega]
          exact hbefore k' (by omega)

/-- The loop of `aufs_new_zone` behind `i` full blocks: the rest is full as well, or the lowest
clear bit is taken, whatever becomes of its number in an `int`. -/
theorem aufsNewZoneLoop_takes {sbi : AufsSuperBlock} {bits n i : Nat} {zmap : MapBlocks}
    (hfull : RowFull bits i zmap) :
    (RowFull bits (i + n) zmap ∧ aufsNewZoneLoop sbi bits n i zmap = (0, zmap)) ∨
    ∃ k zmap' zone, Takes bits (i + n) zmap zmap' k ∧
      aufsNewZoneLoop sbi bits n i zmap = (zone, zmap') ∧ -2 ^ 31 ≤ zone ∧ zone < 2 ^ 31 := by
  induction n generalizing i with
  | zero => exact .inl ⟨hfull, rfl⟩
  | succ n ih =>
    rw [aufsNewZoneLoop]
    by_cases hj : minixFindFirstZeroBit (zmap i) bits < bits
    · have htakes := takes_of_block (show i < i + (n + 1) by omega) hj (minixFindFirstZeroBit_lt hj)
        hfull fun _ hk => bit_before_firstZero hk
      simp only [if_pos hj]
      generalize i32 ((minixFindFirstZeroBit (zmap i) bits : Int) + (i : Int) * (bits : Int)) = j
      by_cases hneg : j < 0
      · simp only [if_pos hneg]
        exact .inr ⟨_, _, 0, htakes, rfl, by decide, by decide⟩
      · simp only [if_neg hneg]
        exact .inr ⟨_, _, _, htakes, rfl, i32_bounds _⟩
    · rw [if_neg hj, show i + (n + 1) = i + 1 + n by omega]
      exact ih (hfull.succ fun _ hk => minixFindFirstZeroBit_full hj hk)

theorem aufsNewZone_takes (sb : Sb) (zmap : MapBlocks) :
    (RowFull (8 * sb.sBlocksize) sb.sbi.asbZoneMapBlocks zmap ∧
      aufsNewZone sb zmap = (0, zmap)) ∨
    ∃ k zmap' zone, Takes (8 * sb.sBlocksize) sb.sbi.asbZoneMapBlocks zmap zmap' k ∧
      aufsNewZone sb zmap = (zone, zmap') ∧ -2 ^ 31 ≤ zone ∧ zone < 2 ^ 31 := by
  have hnone : RowFull (8 * sb.sBlocksize) 0 zmap := by
    intro k hk
    omega
  rw [← Nat.zero_add sb.sbi.asbZoneMapBlocks]
  exact aufsNewZoneLoop_takes hnone

/-- `aufs_new_inode` with memory for the inode: the map is full, or its lowest clear bit is
taken, and number 0 is lost. -/
theorem aufsNewInode_takes (task : Task) (sb : Sb) (imap : MapBlocks) (new dir : AufsInode)
    (mode : Nat) :
    (RowFull (8 * sb.sBlocksize) sb.sbi.asbInodeMapBlocks imap ∧
      aufsNewInode task sb imap (some new) dir mode = (.error .enospc, imap)) ∨
    ∃ k imap', Takes (8 * sb.sBlocksize) sb.sbi.asbInodeMapBlocks imap imap' k ∧
      aufsNewInode task sb imap (some new) dir mode =
        (if k = 0 then .error .enospc else .ok (initInode task new dir mode k), imap') := by
  unfold aufsNewInode
  rcases aufsNewInodeSearch_cases (8 * sb.sBlocksize) sb.sbi.asbInodeMapBlocks 0 imap with
    ⟨hall, heq⟩ | ⟨i, hi, j, hj, hclear, hbefore, hlow, heq⟩
  · simp only [Nat.zero_add] at hall
    exact .inl ⟨rowFull_iff.mpr hall, by simp only [heq]⟩
  · simp only [Nat.zero_add] at hclear hbefore hlow heq
    refine .inr ⟨_, _, takes_of_block hi hj hclear (rowFull_iff.mpr hbefore) hlow, ?_⟩
    simp only [heq, hclear, Bool.false_eq_true, if_false, Nat.add_comm j]
    split
    · rfl
    · rfl

/-- `aufs_new_zone` with one map block, as mkfs writes it, takes the first zero bit. -/
theorem aufsNewZone_eq {sb : Sb} (h1 : sb.sbi.asbZoneMapBlocks = 1)
    (hbits : 8 * sb.sBlocksize < 2 ^ 31) (zmap : MapBlocks) :
    aufsNewZone sb zmap =
      if minixFindFirstZeroBit (zmap 0) (8 * sb.sBlocksize) < 8 * sb.sBlocksize then
        (sb.sbi.zoneBlock (minixFindFirstZeroBit (zmap 0) (8 * sb.sBlocksize)),
          Function.update zmap 0
            (minixSetBit (minixFindFirstZeroBit (zmap 0) (8 * sb.sBlocksize)) (zmap 0)))
      else (0, zmap) := by
  unfold aufsNewZone
  rw [h1, aufsNewZoneLoop]
  generalize minixFindFirstZeroBit (zmap 0) (8 * sb.sBlocksize) = j
  by_cases hj : j < 8 * sb.sBlocksize
  · have hi : i32 (j + ((0 : Nat) : Int) * (8 * sb.sBlocksize : Nat)) = (j : Nat) := by
      rw [Int.natCast_zero, Int.zero_mul, Int.add_zero]
      exact i32_of_lt (by omega)
    simp only [if_pos hj, hi]
    rw [if_neg (by omega)]
    rfl
  · rw [if_neg hj, if_neg hj]
    rfl

/-- The same, bit by bit. -/
theorem aufsNewZone_cases {sb : Sb} (h1 : sb.sbi.asbZoneMapBlocks = 1)
    (hbits : 8 * sb.sBlocksize < 2 ^ 31) (zmap : MapBlocks) :
    ((∀ j < 8 * sb.sBlocksize, bit (zmap 0) j = true) ∧ aufsNewZone sb zmap = (0, zmap)) ∨
    ∃ j < 8 * sb.sBlocksize, bit (zmap 0) j = false ∧ (∀ j' < j, bit (zmap 0) j' = true) ∧
      aufsNewZone sb zmap =
        (sb.sbi.zoneBlock j, Function.update zmap 0 (minixSetBit j (zmap 0))) := by
  rw [aufsNewZone_eq h1 hbits]
  by_cases hj : minixFindFirstZeroBit (zmap 0) (8 * sb.sBlocksize) < 8 * sb.sBlocksize
  · rw [if_pos hj]
    exact .inr ⟨_, hj, minixFindFirstZeroBit_lt hj, fun _ hk => bit_before_firstZero hk, rfl⟩
  · rw [if_neg hj]
    exact .inl ⟨fun _ hk => minixFindFirstZeroBit_full hj hk, rfl⟩

/-- `aufs_new_inode` with one map block, once memory for the inode is there: no number is left,
the number is 0 and lost, or the inode has the lowest free number and no zones. -/
theorem aufsNewInode_cases {sb : Sb} (h1 : sb.sbi.asbInodeMapBlocks = 1) (task : Task)
    (imap : MapBlocks) (new dir : AufsInode) (mode : Nat) :
    ((∀ j < 8 * sb.sBlocksize, bit (imap 0) j = true) ∧
      aufsNewInode task sb imap (some new) dir mode = (.error .enospc, imap)) ∨
    ∃ j < 8 * sb.sBlocksize, bit (imap 0) j = false ∧ (∀ j' < j, bit (imap 0) j' = true) ∧
      aufsNewInode task sb imap (some new) dir mode =
        (if j = 0 then .error .enospc else .ok (initInode task new dir mode j),
        Function.update imap 0 (minixSetBit j (imap 0))) := by
  unfold aufsNewInode
  rw [h1]
  rcases aufsNewInodeSearch_cases (8 * sb.sBlocksize) 1 0 imap with
    ⟨hall, heq⟩ | ⟨k, hk, j, hj, hclear, -, hlow, heq⟩
  · exact .inl ⟨hall 0 (by omega), by simp only [heq]⟩
  · obtain rfl : k = 0 := by omega
    simp only [Nat.add_zero] at hclear hlow heq
    refine .inr ⟨j, hj, hclear, hlow, ?_⟩
    simp only [heq, hclear, Bool.false_eq_true, if_false, Nat.zero_mul, Nat.add_zero]
    split <;> rfl

/-- A successful `aufs_new_inode` has set one clear bit. -/
theorem aufsNewInode_ok {sb : Sb} (h1 : sb.sbi.asbInodeMapBlocks = 1) {new : Option AufsInode}
    (h : aufsNewInode task sb imap new dir mode = (.ok inode, imap')) :
    ∃ n j, new = some n ∧ j < 8 * sb.sBlocksize ∧ j ≠ 0 ∧ bit (imap 0) j = false ∧
      imap' = Function.update imap 0 (minixSetBit j (imap 0)) ∧
      inode = initInode task n dir mode j := by
  cases new with
  | none => cases h
  | some n =>
    rcases aufsNewInode_cases h1 task imap n dir mode with ⟨-, heq⟩ | ⟨j, hj, hclear, -, heq⟩
    · cases heq.symm.trans h
    · rw [heq] at h
      by_cases h0 : j = 0
      · rw [if_pos h0] at h
        cases h
      · rw [if_neg h0] at h
        cases h
        exact ⟨n, j, rfl, hj, h0, hclear, rfl, rfl⟩

/-- No call clears a bit. -/
theorem aufsNewInode_mono {sb : Sb} (h1 : sb.sbi.asbInodeMapBlocks = 1) {new : Option AufsInode}
    (h : aufsNewInode task sb imap new dir mode = (res, imap')) (hk : bit (imap 0) k = true) :
    bit (imap' 0) k = true := by
  cases new with
  | none =>
    cases h
    exact hk
  | some n =>
    rcases aufsNewInode_cases h1 task imap n dir mode with ⟨-, heq⟩ | ⟨j, -, -, -, heq⟩
    · cases heq.symm.trans h
      exact hk
    · cases heq.symm.trans h
      rw [Function.update_self, minixSetBit, bit_setBit, hk]
      exact ite_self true

end Aufs
