import Aufs.Verify.Mount
import Aufs.Verify.ReadEffects

/-! What the module divides by after a mount. The number of inodes in a block is always 64, as it is
computed before the zone size is known, and `aufs_get_block` has compared zone size and block size
before it divides them; but nothing looks at the alignment that the super block gives. -/

namespace Aufs
open Bytes Word

/-! ## `aufs_new_zone` -/

/-- The lowest clear bit among the first `n`. -/
structure LowestFree (bits n : Nat) (zmap : MapBlocks) (k : Nat) : Prop where
  lt : k < n
  clear : rowBit bits zmap k = false
  lowest : ∀ k' < k, rowBit bits zmap k' = true

theorem LowestFree.unique (h : LowestFree bits n zmap k) (h' : LowestFree bits n' zmap k') :
    k = k' := by
  rcases Nat.lt_trichotomy k k' with hlt | heq | hlt
  · cases h.clear.symm.trans (h'.lowest k hlt)
  · exact heq
  · cases h'.clear.symm.trans (h.lowest k' hlt)

/-- The lowest clear bit of the zone map has a number that `aufs_new_zone` goes on with. -/
def Sb.HasZone (sb : Sb) (zmap : MapBlocks) : Prop :=
  ∃ k, LowestFree (8 * sb.sBlocksize) (sb.sbi.asbZoneMapBlocks * (8 * sb.sBlocksize)) zmap k ∧
    0 ≤ i32 k

/-- The loop behind `i` full blocks divides by the alignment once it has found a bit. -/
theorem aufsNewZoneLoopDivisors_eq (sbi : AufsSuperBlock) {bits n i : Nat} {zmap : MapBlocks}
    (hfull : RowFull bits i zmap) :
    (RowFull bits (i + n) zmap ∧ aufsNewZoneLoopDivisors sbi bits n i zmap = []) ∨
      ∃ k, LowestFree bits ((i + n) * bits) zmap k ∧
        aufsNewZoneLoopDivisors sbi bits n i zmap =
          if i32 k < 0 then [] else [sbi.asbAlignmentNumBlocks] := by
  induction n generalizing i with
  | zero => exact .inl ⟨hfull, rfl⟩
  | succ n ih =>
    rw [aufsNewZoneLoopDivisors]
    by_cases hj : minixFindFirstZeroBit (zmap i) bits < bits
    · have htakes := takes_of_block (show i < i + (n + 1) by omega) hj (minixFindFirstZeroBit_lt hj)
        hfull fun _ hk => bit_before_firstZero hk
      refine .inr ⟨_, ⟨htakes.lt, htakes.clear, htakes.lowest⟩, ?_⟩
      rw [if_pos hj, Int.add_comm]
      rfl
    · rw [if_neg hj, show i + (n + 1) = i + 1 + n by omega]
      exact ih (hfull.succ fun _ hk => minixFindFirstZeroBit_full hj hk)

theorem zero_mem_aufsNewZoneDivisors {sb : Sb} {zmap : MapBlocks} :
    0 ∈ aufsNewZoneDivisors sb zmap ↔ sb.sbi.asbAlignmentNumBlocks = 0 ∧ sb.HasZone zmap := by
  have hnone : RowFull (8 * sb.sBlocksize) 0 zmap := by
    intro k hk
    omega
  have hloop := aufsNewZoneLoopDivisors_eq sb.sbi (n := sb.sbi.asbZoneMapBlocks) hnone
  rw [Nat.zero_add] at hloop
  rw [aufsNewZoneDivisors]
  rcases hloop with ⟨hfull, heq⟩ | ⟨k, hk, heq⟩
  · rw [heq]
    constructor
    · intro h
      cases h
    · rintro ⟨-, k, hk, -⟩
      cases (hfull k hk.lt).symm.trans hk.clear
  · rw [heq]
    split
    · next hneg =>
      constructor
      · intro h
        cases h
      · rintro ⟨-, k', hk', hpos⟩
        rw [hk'.unique hk] at hpos
        exact absurd hneg (Int.not_lt.mpr hpos)
    · next hpos =>
      rw [List.mem_singleton]
      exact ⟨fun h => ⟨h.symm, k, hk, Int.not_lt.mp hpos⟩, fun h => h.1.symm⟩

/-! ## The calls -/

/-- The zone map and the inodes in memory. -/
structure CallState where
  zmap : MapBlocks
  inodes : Nat → Option AufsInode

/-- A call of one of the functions that divide, with what it meets: the block size of the buffer and
the words behind the zone pointers, or whether there is memory for an inode, its block can be read,
and what its memory and its slot hold. -/
inductive SbCall where
  | getBlock (ino iblock bSize : Nat) (behind : Nat → Nat) (create : Bool)
  | newZone
  | inodeGet (no : Nat) (igetLocked sbBread : Bool) (leftover : Fin ZONE_PTR_IN_INODE_NUM → Nat)
      (slot : Mem)
  | rawInode (ino : Nat) (sbBread : Int → Bool)

/-- A buffer has bytes. -/
def SbCall.Sized : SbCall → Prop
  | .getBlock _ _ bSize _ _ => 0 < bSize
  | _ => True

/-- The state with inode `no` loaded, if its block could be read and its type is known. -/
def CallState.load (s : CallState) (no : Nat) (sbBread : Bool) : Except Errno AufsInode → CallState
  | .ok inode =>
    if sbBread then { s with inodes := Function.update s.inodes no (some inode) } else s
  | .error _ => s

/-- The state after a call, and what it has divided by. `aufs_get_block` is called on inodes in
memory only, and `aufs_inode_get` does not look at the slot of an inode that is. -/
def SbCall.run (sb : Sb) (s : CallState) : SbCall → CallState × List Nat
  | .getBlock ino iblock bSize behind create =>
    match s.inodes ino with
    | none => (s, [])
    | some inode =>
      let call := aufsGetBlockUses sb s.zmap inode behind iblock bSize create
      ({ zmap := call.1.zmap, inodes := Function.update s.inodes ino (some call.1.inode) },
        call.2.divisors)
  | .newZone => ({ s with zmap := (aufsNewZone sb s.zmap).2 }, aufsNewZoneDivisors sb s.zmap)
  | .inodeGet no igetLocked sbBread leftover slot =>
    if igetLocked = false ∨ (s.inodes no).isSome then (s, [])
    else
      -- `aufs_inode_block` and `aufs_inode_offset`
      (s.load no sbBread (aufsInodeGet leftover no slot),
        [sb.sbi.asbInodesInBlock, sb.sbi.asbInodesInBlock])
  | .rawInode ino sbBread => (s, (minixV2RawInode sb.sbi sbBread ino).2)

/-- What a sequence of calls divides by. -/
def SbCall.divisors (sb : Sb) : CallState → List SbCall → List Nat
  | _, [] => []
  | s, c :: cs => (c.run sb s).2 ++ SbCall.divisors sb (c.run sb s).1 cs

/-- The call is one that takes a zone from the map: `aufs_new_zone`, or `aufs_get_block` for a hole
in the first nine zones. -/
def SbCall.TakesZone (sb : Sb) (s : CallState) : SbCall → Prop
  | .getBlock ino iblock bSize behind _ =>
    ∃ inode, s.inodes ino = some inode ∧ ¬sb.Rejects bSize ∧
      u32 (sb.zoneOf bSize iblock) < ZONE_PTR_IN_INODE_NUM ∧
      inode.zonePtr behind (u32 (sb.zoneOf bSize iblock)) = 0 ∧ sb.HasZone s.zmap
  | .newZone => sb.HasZone s.zmap
  | .inodeGet .. | .rawInode .. => False

/-- One of the calls takes a zone, in the state in which it is made. -/
def SbCall.AnyTakesZone (sb : Sb) : CallState → List SbCall → Prop
  | _, [] => False
  | s, c :: cs => c.TakesZone sb s ∨ SbCall.AnyTakesZone sb (c.run sb s).1 cs

/-- The file system just mounted. -/
def MountedFs.start (fs : MountedFs) : CallState where
  zmap := fun i => (fs.sZmap[i]?).elim (fun _ => 0) Buffer.bData
  inodes := fun no => if no = fs.root.iIno then some fs.root else none

section
variable {sb : Sb} {s : CallState}

/-- `aufs_get_block` has compared zone size and block size before it divides. -/
theorem zero_mem_getBlock_divisors (hsize : 0 < bSize) :
    0 ∈ (aufsGetBlockUses sb zmap inode behind iblock bSize create).2.divisors ↔
      ¬sb.Rejects bSize ∧ u32 (sb.zoneOf bSize iblock) < ZONE_PTR_IN_INODE_NUM ∧
        inode.zonePtr behind (u32 (sb.zoneOf bSize iblock)) = 0 ∧
        0 ∈ aufsNewZoneDivisors sb zmap := by
  have hne : 0 ≠ bSize := Nat.ne_of_lt hsize
  have htested : 0 ∉ (if u32 sb.sbi.asbZoneSize > bSize then [bSize] else []) := by
    split
    · rwa [List.mem_singleton]
    · exact List.not_mem_nil
  rw [Sb.Rejects, Sb.zoneOf]
  simp only [aufsGetBlockUses]
  split
  · next hlt =>
    exact ⟨fun h => absurd h List.not_mem_nil, fun h => absurd (.inl hlt) h.1⟩
  · next hge =>
    split
    · next hmod => exact ⟨fun h => absurd h htested, fun h => absurd (.inr hmod) h.1⟩
    · next hmod =>
      have hzone : 0 ≠ u32 sb.sbi.asbZoneSize / bSize :=
        Nat.ne_of_lt (Nat.div_pos (Nat.le_of_not_lt hge) hsize)
      have hnot : 0 ∉ (if u32 sb.sbi.asbZoneSize > bSize then [bSize] else []) ++
          [bSize, u32 sb.sbi.asbZoneSize / bSize, bSize, u32 sb.sbi.asbZoneSize / bSize] := by
        simp [htested, hne, hzone]
      have hrej : ¬(u32 sb.sbi.asbZoneSize < bSize ∨
          u32 sb.sbi.asbZoneSize > bSize ∧ u32 sb.sbi.asbZoneSize % bSize ≠ 0) :=
        not_or.mpr ⟨hge, hmod⟩
      split
      · next hptr =>
        split
        · next hidx =>
          rw [List.mem_append]
          exact ⟨fun h => ⟨hrej, hidx, hptr, h.resolve_left hnot⟩, fun h => .inr h.2.2.2⟩
        · next hidx => exact ⟨fun h => absurd h hnot, fun h => absurd h.2.1 hidx⟩
      · next hptr => exact ⟨fun h => absurd h hnot, fun h => absurd h.2.2.1 hptr⟩

/-- A call divides by zero exactly when it takes a zone and the alignment is zero. -/
theorem SbCall.zero_mem_run (hinodes : sb.sbi.asbInodesInBlock ≠ 0) {c : SbCall} (hsize : c.Sized) :
    0 ∈ (c.run sb s).2 ↔ sb.sbi.asbAlignmentNumBlocks = 0 ∧ c.TakesZone sb s := by
  have htwice : 0 ∉ [sb.sbi.asbInodesInBlock, sb.sbi.asbInodesInBlock] := by
    simp [hinodes.symm]
  cases c with
  | getBlock ino iblock bSize behind create =>
    rw [SbCall.run]
    cases hino : s.inodes ino with
    | none =>
      refine ⟨fun h => absurd h List.not_mem_nil, ?_⟩
      rintro ⟨-, inode, hinode, -⟩
      cases hino.symm.trans hinode
    | some inode =>
      rw [zero_mem_getBlock_divisors hsize, zero_mem_aufsNewZoneDivisors]
      constructor
      · rintro ⟨hrej, hidx, hptr, hal, hzone⟩
        exact ⟨hal, inode, hino, hrej, hidx, hptr, hzone⟩
      · rintro ⟨hal, inode', hinode', hrej, hidx, hptr, hzone⟩
        cases hino.symm.trans hinode'
        exact ⟨hrej, hidx, hptr, hal, hzone⟩
  | newZone => exact zero_mem_aufsNewZoneDivisors
  | inodeGet no igetLocked sbBread leftover slot =>
    refine ⟨fun h => ?_, fun h => h.2.elim⟩
    rw [SbCall.run] at h
    split at h
    · cases h
    · exact absurd h htwice
  | rawInode ino sbBread =>
    refine ⟨fun h => ?_, fun h => h.2.elim⟩
    rw [SbCall.run, minixV2RawInode] at h
    split at h
    · cases h
    · exact absurd h htwice

theorem SbCall.zero_mem_divisors (hinodes : sb.sbi.asbInodesInBlock ≠ 0) {cs : List SbCall}
    (hsize : ∀ c ∈ cs, c.Sized) :
    0 ∈ SbCall.divisors sb s cs ↔
      sb.sbi.asbAlignmentNumBlocks = 0 ∧ SbCall.AnyTakesZone sb s cs := by
  induction cs generalizing s with
  | nil => exact ⟨fun h => absurd h List.not_mem_nil, fun h => h.2.elim⟩
  | cons c cs ih =>
    rw [SbCall.divisors, List.mem_append, zero_mem_run hinodes (hsize c List.mem_cons_self),
      ih fun c' hc' => hsize c' (List.mem_cons_of_mem _ hc'), SbCall.AnyTakesZone]
    exact and_or_left.symm

end

/-- After a mount, whatever the device holds, a sequence of calls divides by zero nowhere exactly
when the alignment in the super block is not zero or none of the calls takes a zone. -/
theorem divisors_ne_zero_iff {env : MountEnv} {dev : Device} {fs : MountedFs} {cs : List SbCall}
    (hmount : mountAufsFillSb env dev = .ok (.ok fs)) (hsize : ∀ c ∈ cs, c.Sized) :
    (∀ d ∈ SbCall.divisors fs.sb fs.start cs, d ≠ 0) ↔
      be32 dev.bytes dsbAlignmentNumBlocks ≠ 0 ∨ ¬SbCall.AnyTakesZone fs.sb fs.start cs := by
  obtain ⟨-, hsb, -⟩ := mount_ok hmount
  have hinodes : fs.sb.sbi.asbInodesInBlock ≠ 0 := by
    have hconst : (aufsFillSb dev.bytes).sbi.asbInodesInBlock = u64OfInt (i32 4096) / 64 := rfl
    rw [hsb, hconst]
    decide
  have halign : fs.sb.sbi.asbAlignmentNumBlocks = be32 dev.bytes dsbAlignmentNumBlocks := by
    rw [hsb]
    rfl
  have hzero := SbCall.zero_mem_divisors (s := fs.start) hinodes hsize
  rw [halign] at hzero
  rw [← not_and_or, ← hzero]
  exact ⟨fun h hmem => h 0 hmem rfl, fun h d hd hd0 => h (hd0 ▸ hd)⟩

/-- A device with one map block each, 4 KiB zones and the given alignment, whose root inode is a
directory. -/
def alignedDevice (alignment : Nat) : Device where
  size := 2 ^ 20
  bytes :=
    let sb := putBe32 (fun _ => 0) dsbMagic AUFS_MAGIC
    let sb := putBe32 sb dsbBlockSize 4096
    let sb := putBe32 sb dsbRootInode 1
    let sb := putBe32 sb dsbInodeBlocks 1
    let sb := putBe32 sb dsbInodeMapBlocks 1
    let sb := putBe32 sb dsbZoneMapBlocks 1
    let sb := putBe32 sb dsbAlignmentNumBlocks alignment
    putBe32 sb (3 * 4096 + 64 + diMode) S_IFDIR

/-- The mount succeeds, and `test` holds of the mounted file system. -/
def mountsWith (test : MountedFs → Bool) : Except MountFault (Except Errno MountedFs) → Bool
  | .ok (.ok fs) => test fs
  | _ => false

theorem exists_of_mountsWith {test : MountedFs → Bool} (h : mountsWith test ret = true) :
    ∃ fs, ret = .ok (.ok fs) ∧ test fs = true := by
  unfold mountsWith at h
  split at h
  · exact ⟨_, rfl, h⟩
  · cases h

/-- With the alignment that mkfs writes a new zone can be taken. -/
theorem divisors_ne_zero_aligned :
    ∃ fs, mountAufsFillSb (quietMount 4096) (alignedDevice 1024) = .ok (.ok fs) ∧
      ∀ d ∈ SbCall.divisors fs.sb fs.start [.newZone], d ≠ 0 := by
  have hmounts : mountsWith (fun _ => true)
      (mountAufsFillSb (quietMount 4096) (alignedDevice 1024)) = true := by decide +kernel
  obtain ⟨fs, hmount, -⟩ := exists_of_mountsWith hmounts
  refine ⟨fs, hmount, (divisors_ne_zero_iff hmount fun c hc => ?_).mpr (.inl (by decide))⟩
  cases List.mem_singleton.mp hc
  trivial

/-- A device with alignment zero mounts, and the first new zone divides by it. -/
theorem zero_alignment_divides :
    ∃ fs, mountAufsFillSb (quietMount 4096) (alignedDevice 0) = .ok (.ok fs) ∧
      0 ∈ SbCall.divisors fs.sb fs.start [.newZone] := by
  have hmounts : mountsWith (fun fs => decide (0 ∈ SbCall.divisors fs.sb fs.start [.newZone]))
      (mountAufsFillSb (quietMount 4096) (alignedDevice 0)) = true := by decide +kernel
  obtain ⟨fs, hmount, hzero⟩ := exists_of_mountsWith hmounts
  exact ⟨fs, hmount, of_decide_eq_true hzero⟩

end Aufs
