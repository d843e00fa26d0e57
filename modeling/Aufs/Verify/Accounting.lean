import Aufs.Verify.Remount

/-! Free space. Zones and inode numbers are taken in order from 2 on and never given back; every
zone taken belongs to one pointer of one file, and every number taken to a file, over all mounts. -/

namespace Aufs
open Bytes Word

variable {config : Configuration} {sb : Sb} {behind : Nat → Nat}

/-- The zones below `zones` and the inode numbers below `inodes` are taken: by pointers of files,
and by files. -/
structure FileSys.Account (config : Configuration) (sb : Sb) (zones inodes : Nat) (s : FileSys) :
    Prop where
  zones_ge : 2 ≤ zones
  zones_le : zones ≤ config.numZones
  zmap : ∀ j < 8 * sb.sBlocksize,
    bit (s.zmap 0) j = true ↔ j < zones ∨ config.numZones ≤ j
  ptr : ∀ j, 2 ≤ j → j < zones → ∃ ino i, s.Ptr ino i (sb.zoneStart config j)
  inodes_ge : 2 ≤ inodes
  inodes_le : inodes ≤ SuperBlock.numInodes config
  imap : ∀ j < 8 * sb.sBlocksize,
    bit (s.imap 0) j = true ↔ j < inodes ∨ SuperBlock.numInodes config ≤ j
  files : ∀ ino, (s.files ino).isSome ↔ 2 ≤ ino ∧ ino < inodes

namespace FileSys

variable {s s' : FileSys}

/-- `aufs_new_zone` takes the lowest zone that is free. -/
theorem getBlock_lowest (M : Mounted config sb) (I : s.Inv config sb)
    (h : s.getBlock sb behind ino iblock create = some (ret, s')) :
    s' = s ∨ ∃ inode i j, s.files ino = some inode ∧ inode.aiZonePtr i = 0 ∧ 2 ≤ j ∧
      j < config.numZones ∧ bit (s.zmap 0) j = false ∧ (∀ k < j, bit (s.zmap 0) k = true) ∧
      s' = takeZone config sb s ino inode i j := by
  obtain ⟨hidx, ⟨rfl, -⟩ | ⟨inode, hi, h0, j, hj2, hjn, hbit, -, heq⟩⟩ := getBlock_cases M I h
  · exact .inl rfl
  · refine .inr ⟨inode, _, j, hi, h0, hj2, hjn, hbit, fun k hk => ?_, heq⟩
    obtain ⟨inode', hi', h⟩ := Option.bind_eq_some_iff.mp h
    cases hi.symm.trans hi'
    obtain ⟨-, h⟩ := guard_bind_eq_some.mp h
    obtain ⟨-, h⟩ := guard_bind_eq_some.mp h
    rw [M.reads.getBlock_unmapped M.accepted hidx h0] at h
    simp only [Option.pure_def, Option.some.injEq, Prod.mk.injEq] at h
    have hz : (aufsNewZone sb s.zmap).2 = s'.zmap := congrArg FileSys.zmap h.2
    -- the bit that was set is the one of zone `j`
    have hset : bit ((aufsNewZone sb s.zmap).2 0) j = true := by
      rw [hz, heq, bit_takeZone, if_pos rfl]
    rcases aufsNewZone_cases M.reads.zoneMapBlocks (M.reads.bits_lt M.accepted) s.zmap with
      ⟨-, hfull⟩ | ⟨j', -, -, hlow, htake⟩
    · rw [hfull] at hset
      cases hbit.symm.trans hset
    · rw [htake] at hset
      change bit (Function.update s.zmap 0 (minixSetBit j' (s.zmap 0)) 0) j = true at hset
      rw [Function.update_self, minixSetBit, bit_setBit] at hset
      split at hset
      · next hj =>
        rw [hj] at hk
        exact hlow k hk
      · cases hbit.symm.trans hset

namespace Account

theorem getBlock (M : Mounted config sb) (I : s.Inv config sb)
    (A : s.Account config sb zones inodes)
    (h : s.getBlock sb behind ino iblock create = some (ret, s')) :
    ∃ zones', s'.Account config sb zones' inodes := by
  rcases getBlock_lowest M I h with
    rfl | ⟨inode, i, j, hi, h0, hj2, hjn, hbit, hlow, rfl⟩
  · exact ⟨zones, A⟩
  · have hle := M.accepted.numZones_le
    have hbs := M.reads.blocksize
    have hstart : sb.zoneStart config j ≠ 0 := by
      have := M.zoneStart_ge hj2
      omega
    obtain rfl : j = zones := by
      have hnot : ¬(j < zones ∨ config.numZones ≤ j) := fun hor => by
        cases hbit.symm.trans ((A.zmap j (by omega)).mpr hor)
      by_contra hne
      have := (A.zmap zones (by omega)).mp (hlow zones (by omega))
      omega
    refine ⟨j + 1, by omega, hjn, fun k hk => ?_, fun k hk2 hk => ?_, A.inodes_ge, A.inodes_le,
      A.imap, fun ino' => ?_⟩
    · rw [bit_takeZone]
      split
      · next heq => exact ⟨fun _ => by omega, fun _ => rfl⟩
      · next hne =>
        rw [A.zmap k hk]
        omega
    · by_cases heq : k = j
      · exact ⟨ino, i, (ptr_takeZone hi h0 hstart).mpr (.inr ⟨rfl, rfl, by rw [heq]⟩)⟩
      · obtain ⟨ino', i', hp⟩ := A.ptr k hk2 (by omega)
        exact ⟨ino', i', (ptr_takeZone hi h0 hstart).mpr (.inl hp)⟩
    · rw [← A.files ino']
      simp only [takeZone, Function.update_apply]
      split
      · next heq => rw [heq, hi]; exact ⟨fun _ => rfl, fun _ => rfl⟩
      · rfl

/-- A change of an inode that keeps its zone pointers. -/
theorem setInode (A : s.Account config sb zones inodes) (hi : s.files ino = some inode)
    (hptr : inode'.aiZonePtr = inode.aiZonePtr) :
    (s.setInode ino inode').Account config sb zones inodes := by
  refine ⟨A.zones_ge, A.zones_le, A.zmap, fun j hj2 hj => ?_, A.inodes_ge, A.inodes_le, A.imap,
    fun ino' => ?_⟩
  · obtain ⟨ino', i, hp⟩ := A.ptr j hj2 hj
    exact ⟨ino', i, (ptr_setInode hi hptr).mpr hp⟩
  · rw [← A.files ino']
    simp only [FileSys.setInode, Function.update_apply]
    split
    · next heq => rw [heq, hi]; exact ⟨fun _ => rfl, fun _ => rfl⟩
    · rfl

theorem setDev (A : s.Account config sb zones inodes) (dev : Device) :
    Account config sb zones inodes { s with dev } :=
  ⟨A.zones_ge, A.zones_le, A.zmap, A.ptr, A.inodes_ge, A.inodes_le, A.imap, A.files⟩

theorem edits (M : Mounted config sb) (I : s.Inv config sb)
    (A : s.Account config sb zones inodes) (e : s.Edits sb behind AufsInode.SameFile s') :
    ∃ zones', s'.Account config sb zones' inodes := by
  induction e with
  | refl => exact ⟨zones, A⟩
  | getBlock e hget ih =>
    obtain ⟨_, A'⟩ := ih
    exact A'.getBlock M (e.moves M I).1 hget
  | inode _ hi hsame ih =>
    obtain ⟨_, A'⟩ := ih
    exact ⟨_, A'.setInode hi hsame.1⟩
  | store _ _ ih =>
    obtain ⟨_, A'⟩ := ih
    exact ⟨_, A'.setDev _⟩

/-- A new file gets the next number, until all are taken. -/
theorem newInode (M : Mounted config sb) (A : s.Account config sb zones inodes)
    (h : s.exec sb behind (.newInode task leftover dir mode) = some (.created ret, s')) :
    (inodes < SuperBlock.numInodes config ∧ ret = .ok inodes ∧
      s'.Account config sb zones (inodes + 1)) ∨
    inodes = SuperBlock.numInodes config ∧ ret = .error .enospc ∧
      s'.Account config sb zones inodes := by
  have hge := A.inodes_ge
  have hle := A.inodes_le
  have hbits : SuperBlock.numInodes config ≤ 8 * sb.sBlocksize := by
    rw [M.accepted.numInodes_eq, M.reads.blocksize, Nat.mul_comm 8]
    exact Nat.min_le_right _ _
  simp only [FileSys.exec] at h
  rcases aufsNewInode_cases M.reads.inodeMapBlocks task s.imap (Aufs.newInode leftover) dir mode
    with ⟨hfull, heq⟩ | ⟨j, hj, hbit, hlow, heq⟩
  · simp only [heq, Option.some.injEq, Prod.mk.injEq, FileOut.created.injEq] at h
    obtain ⟨rfl, rfl⟩ := h
    have hall : inodes = SuperBlock.numInodes config := by
      by_contra hne
      have := (A.imap inodes (by omega)).mp (hfull inodes (by omega))
      omega
    exact .inr ⟨hall, rfl, A⟩
  · have hnot : ¬(j < inodes ∨ SuperBlock.numInodes config ≤ j) := fun hor => by
      cases hbit.symm.trans ((A.imap j hj).mpr hor)
    obtain rfl : j = inodes := by
      by_contra hne
      have := (A.imap inodes (by omega)).mp (hlow inodes (by omega))
      omega
    have h0 : j ≠ 0 := by omega
    simp only [heq, if_neg h0, Option.some.injEq, Prod.mk.injEq, FileOut.created.injEq] at h
    obtain ⟨rfl, rfl⟩ := h
    have hfree : s.files j = none := by
      rw [← Option.not_isSome_iff_eq_none, A.files j]
      omega
    refine .inl ⟨by omega, rfl, A.zones_ge, A.zones_le, A.zmap, fun k hk2 hk => ?_, by omega,
      by omega, fun k hk => ?_, fun ino => ?_⟩
    · obtain ⟨ino, i, hp⟩ := A.ptr k hk2 hk
      exact ⟨ino, i, (ptr_addInode hfree fun _ => rfl).mpr hp⟩
    · change bit (Function.update s.imap 0 (minixSetBit j (s.imap 0)) 0) k = true ↔ _
      rw [Function.update_self, minixSetBit, bit_setBit]
      split
      · next hk' => exact ⟨fun _ => by omega, fun _ => rfl⟩
      · next hk' =>
        rw [A.imap k hk]
        omega
    · change (Function.update s.files j _ ino).isSome ↔ _
      rw [Function.update_apply]
      split
      · next hino => exact ⟨fun _ => ⟨by omega, by omega⟩, fun _ => rfl⟩
      · next hino =>
        rw [A.files ino]
        omega

/-- A mount finds the same account. -/
theorem reread {s s' : PageCache} (r : s.Reread sb s')
    (A : s.fs.Account config sb zones inodes) : s'.fs.Account config sb zones inodes := by
  refine ⟨A.zones_ge, A.zones_le, fun j hj => ?_, fun j hj2 hj => ?_, A.inodes_ge, A.inodes_le,
    fun j hj => ?_, fun ino => ?_⟩
  · rw [r.zmap j hj]
    exact A.zmap j hj
  · obtain ⟨ino, i, hp⟩ := A.ptr j hj2 hj
    exact ⟨ino, i, (r.ptr ..).mpr hp⟩
  · rw [r.imap j hj]
    exact A.imap j hj
  · rw [← A.files ino]
    constructor
    · intro h
      obtain ⟨inode', hi'⟩ := Option.isSome_iff_exists.mp h
      obtain ⟨inode, hi, -⟩ := r.back ino inode' hi'
      exact Option.isSome_of_eq_some hi
    · intro h
      obtain ⟨inode, hi⟩ := Option.isSome_iff_exists.mp h
      obtain ⟨inode', hi', -⟩ := r.files ino inode hi
      exact Option.isSome_of_eq_some hi'

end Account

end FileSys

/-! ## Runs -/

/-- How many files a history has created. -/
def created (hist : List (DiskOp × DiskOut)) : Nat :=
  hist.countP fun
    | (_, .page (.created (.ok _))) => true
    | _ => false

section
variable {image : Image} {menv : MkfsEnv} {s s' : PageCache} (M : Mounted config sb)
  (hf : image.Formatted config menv)
  (hplaced : 4096 ≤ config.zoneSize ∨ config.numZones ≤ config.blockSize / sizeofInode)
include M hf hplaced

end

end Aufs
