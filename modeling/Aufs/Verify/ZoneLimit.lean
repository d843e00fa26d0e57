import Aufs.Kern.Inode

/-! What `aufs_get_block` divides by, and which elements of `ai_zone_ptr` it reads and writes.

The array has nine elements. The index is compared with nine after the element has been read, and
only if that element is zero; it is a quotient of 64 bits cut to 32. -/

namespace Aufs
open Bytes Word

/-- What a call divides by and which elements of `ai_zone_ptr` it reads or writes, in order. -/
structure Uses where
  divisors : List Nat
  zonePtrs : List Nat

/-- What the loop of `aufs_new_zone` divides by: the alignment, once it has a number to return. -/
def aufsNewZoneLoopDivisors (sbi : AufsSuperBlock) (bitsPerBlock : Nat) :
    Nat → Nat → MapBlocks → List Nat
  | 0, _, _ => []
  | n + 1, i, zmap =>
    let j := minixFindFirstZeroBit (zmap i) bitsPerBlock
    if j < bitsPerBlock then
      if i32 (j + i * bitsPerBlock) < 0 then [] else [sbi.asbAlignmentNumBlocks]
    else aufsNewZoneLoopDivisors sbi bitsPerBlock n (i + 1) zmap

def aufsNewZoneDivisors (sb : Sb) (zmap : MapBlocks) : List Nat :=
  aufsNewZoneLoopDivisors sb.sbi (8 * sb.sBlocksize) sb.sbi.asbZoneMapBlocks 0 zmap

/-- `aufs_get_block` with its uses. -/
def aufsGetBlockUses (sb : Sb) (zmap : MapBlocks) (inode : AufsInode) (behind : Nat → Nat)
    (iblock bSize : Nat) (_create : Bool) : GetBlock × Uses :=
  let zoneSize := u32 sb.sbi.asbZoneSize
  if zoneSize < bSize then ({ ret := .error .eio, inode, zmap, newZone := none }, ⟨[], []⟩)
  else
    -- the remainder is taken only of a zone larger than the block
    let tested := if zoneSize > bSize then [bSize] else []
    if zoneSize > bSize ∧ zoneSize % bSize ≠ 0 then
      ({ ret := .error .eio, inode, zmap, newZone := none }, ⟨tested, []⟩)
    else
      let blockIdx := u32 (iblock / (zoneSize / bSize))
      let blockOffset := u32 (iblock % (zoneSize / bSize))
      let divisors := tested ++ [bSize, zoneSize / bSize, bSize, zoneSize / bSize]
      if inode.zonePtr behind blockIdx = 0 then
        if h : blockIdx < ZONE_PTR_IN_INODE_NUM then
          let zone := (aufsNewZone sb zmap).1
          let inode := { inode with
            aiZonePtr := Function.update inode.aiZonePtr ⟨blockIdx, h⟩ (u64OfInt zone) }
          ({ ret := .ok (u64 (blockOffset + u64OfInt zone)), inode
             zmap := (aufsNewZone sb zmap).2, newZone := some zone },
            ⟨divisors ++ aufsNewZoneDivisors sb zmap, [blockIdx, blockIdx, blockIdx]⟩)
        else ({ ret := .error .eio, inode, zmap, newZone := none }, ⟨divisors, [blockIdx]⟩)
      else
        ({ ret := .ok (u64 (blockOffset + inode.zonePtr behind blockIdx)), inode, zmap,
           newZone := none }, ⟨divisors, [blockIdx, blockIdx]⟩)

section
variable {sb : Sb} {zmap : MapBlocks} {inode : AufsInode} {behind : Nat → Nat} {iblock bSize : Nat}
  {create : Bool}

/-- The uses do not change what the call does. -/
theorem aufsGetBlockUses_fst :
    (aufsGetBlockUses sb zmap inode behind iblock bSize create).1 =
      aufsGetBlock sb zmap inode behind iblock bSize create := by
  simp only [aufsGetBlockUses, aufsGetBlock]
  split
  · rfl
  · split
    · rfl
    · split
      · split
        · rfl
        · rfl
      · rfl

/-! ## The nine zones -/

/-- A call for file block `iblock` that keeps to the nine zones: it touches no element past the
array, and past the ninth zone it fails and leaves the inode and the zone map. -/
structure KeepsLimit (zmap : MapBlocks) (inode : AufsInode) (idx : Nat) (call : GetBlock × Uses) :
    Prop where
  inside : ∀ i ∈ call.2.zonePtrs, i < ZONE_PTR_IN_INODE_NUM
  beyond : ZONE_PTR_IN_INODE_NUM ≤ idx →
    (∃ e, call.1.ret = .error e) ∧ call.1.inode = inode ∧ call.1.zmap = zmap

/-- A call that gets to the array touches the element with the number of the zone cut to 32 bits,
and with a number below nine it succeeds. -/
theorem zonePtrs_of_dvd (zmap : MapBlocks) (inode : AufsInode) (behind : Nat → Nat) (iblock : Nat)
    (create : Bool) (hdvd : bSize ∣ u32 sb.sbi.asbZoneSize)
    (hle : bSize ≤ u32 sb.sbi.asbZoneSize) :
    let idx := u32 (iblock / (u32 sb.sbi.asbZoneSize / bSize))
    let call := aufsGetBlockUses sb zmap inode behind iblock bSize create
    (∀ i ∈ call.2.zonePtrs, i = idx) ∧ idx ∈ call.2.zonePtrs ∧
      (idx < ZONE_PTR_IN_INODE_NUM → ∃ block, call.1.ret = .ok block) := by
  have hmod : ¬(u32 sb.sbi.asbZoneSize > bSize ∧ u32 sb.sbi.asbZoneSize % bSize ≠ 0) :=
    fun h => h.2 (Nat.mod_eq_zero_of_dvd hdvd)
  simp only [aufsGetBlockUses, if_neg (Nat.not_lt.mpr hle), if_neg hmod]
  generalize u32 (iblock / (u32 sb.sbi.asbZoneSize / bSize)) = idx
  split
  · split
    · simp
    · next h => simp [h]
  · simp

/-- With the block size a divisor of the zone size, `aufs_get_block` keeps to the nine zones exactly
when the block lies in one of them. -/
theorem nine_zone_limit_iff (hdvd : bSize ∣ u32 sb.sbi.asbZoneSize) :
    KeepsLimit zmap inode (iblock / (u32 sb.sbi.asbZoneSize / bSize))
        (aufsGetBlockUses sb zmap inode behind iblock bSize create) ↔
      iblock / (u32 sb.sbi.asbZoneSize / bSize) < ZONE_PTR_IN_INODE_NUM := by
  rcases Nat.lt_or_ge (u32 sb.sbi.asbZoneSize) bSize with hlt | hle
  · -- No zone at all: the call fails before it gets to the array.
    have hzero : u32 sb.sbi.asbZoneSize = 0 := Nat.eq_zero_of_dvd_of_lt hdvd hlt
    have hidx : iblock / (u32 sb.sbi.asbZoneSize / bSize) < ZONE_PTR_IN_INODE_NUM := by
      rw [hzero, Nat.zero_div, Nat.div_zero]
      decide
    refine ⟨fun _ => hidx, fun _ => ⟨?_, fun h => absurd hidx (Nat.not_lt.mpr h)⟩⟩
    simp [aufsGetBlockUses, if_pos hlt]
  · obtain ⟨hall, hmem, hok⟩ := zonePtrs_of_dvd zmap inode behind iblock create hdvd hle
    constructor
    · intro h
      by_contra hge
      obtain ⟨⟨e, he⟩, -⟩ := h.beyond (Nat.le_of_not_lt hge)
      obtain ⟨block, hblock⟩ := hok (h.inside _ hmem)
      cases he.symm.trans hblock
    · intro h
      refine ⟨fun i hi => ?_, fun hge => absurd h (Nat.not_lt.mpr hge)⟩
      rw [hall i hi, u32_of_lt (Nat.lt_trans h (by decide))]
      exact h

end

/-- Zones of four blocks, as mkfs makes them by default. -/
def fourBlockZones : Sb where
  sbi :=
    { asbMagic := AUFS_MAGIC
      asbInodeBlocks := 1
      asbZoneSize := 16384
      asbRootInode := 1
      asbInodesInBlock := 64
      asbInodeMapBlocks := 1
      asbZoneMapBlocks := 1
      asbBlocksPerZone := 4
      asbAlignmentNumBlocks := 1024 }
  sBlocksize := 4096

theorem fourBlockZones_dvd : 4096 ∣ u32 fourBlockZones.sbi.asbZoneSize := ⟨4, rfl⟩

/-- The last block of the ninth zone. -/
theorem nine_zone_limit_last :
    KeepsLimit (fun _ _ => 0) (newInode fun _ => 0) 8
      (aufsGetBlockUses fourBlockZones (fun _ _ => 0) (newInode fun _ => 0) (fun _ => 0) 35 4096
        true) :=
  (nine_zone_limit_iff fourBlockZones_dvd).mpr (show 35 / 4 < 9 by decide)

/-- The first block behind it: the call reads what stands behind the array and maps it. -/
theorem nine_zone_limit_missed :
    9 ∈ (aufsGetBlockUses fourBlockZones (fun _ _ => 0) (newInode fun _ => 0) (fun _ => 1) 36 4096
        false).2.zonePtrs ∧
      (aufsGetBlock fourBlockZones (fun _ _ => 0) (newInode fun _ => 0) (fun _ => 1) 36 4096
        false).ret = .ok 1 := by
  decide

end Aufs
