import Aufs.Kern.File
import Aufs.Verify.SuperBlock

/-! What `aufs_get_block` and `aufs_new_zone` do on a mounted image: below nine zones a file block
is its offset in the zone behind the inode's pointer, and a missing pointer is filled with the
lowest free zone of the map. -/

namespace Aufs
open Bytes Word

variable {config : Configuration} {sb : Sb}

/-- The inode with zone pointer `i` set to `zone`. -/
def AufsInode.setZonePtr (inode : AufsInode) (i : Fin ZONE_PTR_IN_INODE_NUM) (zone : Nat) :
    AufsInode :=
  { inode with aiZonePtr := Function.update inode.aiZonePtr i zone }

section
variable (inode : AufsInode) (i : Fin ZONE_PTR_IN_INODE_NUM) (zone : Nat)

@[simp] theorem AufsInode.setZonePtr_self : (inode.setZonePtr i zone).aiZonePtr i = zone :=
  Function.update_self ..

theorem AufsInode.setZonePtr_of_ne {k : Fin ZONE_PTR_IN_INODE_NUM} (h : k ≠ i) :
    (inode.setZonePtr i zone).aiZonePtr k = inode.aiZonePtr k := Function.update_of_ne h ..

@[simp] theorem AufsInode.setZonePtr_iSize : (inode.setZonePtr i zone).iSize = inode.iSize := rfl

end

/-- `aufs_get_block` leaves everything but the zone pointers of the inode alone. -/
theorem aufsGetBlock_inode (sb : Sb) (zmap : MapBlocks) (inode : AufsInode) (behind : Nat → Nat)
    (iblock bSize : Nat) (create : Bool) :
    ∃ ptr, (aufsGetBlock sb zmap inode behind iblock bSize create).inode =
      { inode with aiZonePtr := ptr } := by
  simp only [aufsGetBlock]
  split
  · exact ⟨_, rfl⟩
  · split
    · exact ⟨_, rfl⟩
    · split
      · split
        · exact ⟨_, rfl⟩
        · exact ⟨_, rfl⟩
      · exact ⟨_, rfl⟩

/-- The exact number of the first block of zone `j` in the kernel's data region. -/
def Sb.zoneStart (sb : Sb) (config : Configuration) (j : Nat) : Nat :=
  j * config.blocksPerZone + sb.sbi.dataBase

namespace Sb.Reads

theorem zoneIdx_eq (R : sb.Reads config) : sb.zoneIdx iblock = iblock / config.blocksPerZone := by
  rw [Sb.zoneIdx, R.zoneSize, R.blocksize]
  rfl

theorem getBlock_eq (R : sb.Reads config) (H : config.Accepted)
    (hidx : iblock / config.blocksPerZone < ZONE_PTR_IN_INODE_NUM) (zmap : MapBlocks)
    (inode : AufsInode) (behind : Nat → Nat) (create : Bool) :
    aufsGetBlock sb zmap inode behind iblock sb.sBlocksize create =
      if inode.aiZonePtr ⟨iblock / config.blocksPerZone, hidx⟩ = 0 then
        { ret := .ok (u64 (iblock % config.blocksPerZone + u64OfInt (aufsNewZone sb zmap).1))
          inode := inode.setZonePtr ⟨_, hidx⟩ (u64OfInt (aufsNewZone sb zmap).1)
          zmap := (aufsNewZone sb zmap).2
          newZone := some (aufsNewZone sb zmap).1 }
      else
        { ret := .ok (u64 (iblock % config.blocksPerZone + inode.aiZonePtr ⟨_, hidx⟩))
          inode, zmap
          newZone := none } := by
  have hbs := H.blockSize_pos
  have hle := H.blocksPerZone_le
  have hpos := H.blocksPerZone_pos
  have hzone : u32 config.zoneSize = config.zoneSize := u32_of_lt H.zoneSize_lt
  have hge : config.blockSize ≤ config.zoneSize := by
    rw [H.zoneSize_eq]
    exact Nat.le_mul_of_pos_left _ hpos
  have hdvd : config.zoneSize % config.blockSize = 0 := by
    rw [H.zoneSize_eq]
    exact Nat.mul_mod_left ..
  have hdiv : config.zoneSize / config.blockSize = config.blocksPerZone := rfl
  have hoff : iblock % config.blocksPerZone < config.blocksPerZone := Nat.mod_lt _ hpos
  have h9 : ZONE_PTR_IN_INODE_NUM = 9 := rfl
  have hu : u32 (iblock / config.blocksPerZone) = iblock / config.blocksPerZone :=
    u32_of_lt (by omega)
  have hu' : u32 (iblock % config.blocksPerZone) = iblock % config.blocksPerZone :=
    u32_of_lt (by omega)
  simp only [aufsGetBlock, R.zoneSize, R.blocksize, hzone, hdiv, hdvd, hu, hu', ne_eq,
    not_true_eq_false, and_false, if_false]
  rw [if_neg (by omega)]
  simp only [AufsInode.zonePtr, hidx, dite_true]
  rfl

/-- The pointer that is stored for zone `j`, if its number fits an `int`. -/
theorem zonePtr_eq (R : sb.Reads config) (H : config.Accepted) (hj : j < 8 * sb.sBlocksize)
    (hfit : sb.zoneStart config j < 2 ^ 31) :
    u64OfInt (sb.sbi.zoneBlock j) = sb.zoneStart config j := by
  have hbits := R.bits_lt H
  rw [R.zoneBlock_of_lt H (by omega) hfit]
  exact u64OfInt_natCast (Nat.lt_trans hfit (by decide))

/-- The same, case by case. -/
theorem getBlock_mapped (R : sb.Reads config) (H : config.Accepted)
    (hidx : iblock / config.blocksPerZone < ZONE_PTR_IN_INODE_NUM) {inode : AufsInode}
    (hptr : inode.aiZonePtr ⟨_, hidx⟩ ≠ 0) (zmap : MapBlocks) (behind : Nat → Nat)
    (create : Bool) :
    aufsGetBlock sb zmap inode behind iblock sb.sBlocksize create =
      { ret := .ok (u64 (iblock % config.blocksPerZone + inode.aiZonePtr ⟨_, hidx⟩))
        inode, zmap
        newZone := none } := by
  rw [R.getBlock_eq H hidx, if_neg hptr]

theorem getBlock_unmapped (R : sb.Reads config) (H : config.Accepted)
    (hidx : iblock / config.blocksPerZone < ZONE_PTR_IN_INODE_NUM) {inode : AufsInode}
    (hptr : inode.aiZonePtr ⟨_, hidx⟩ = 0) (zmap : MapBlocks) (behind : Nat → Nat)
    (create : Bool) :
    aufsGetBlock sb zmap inode behind iblock sb.sBlocksize create =
      { ret := .ok (u64 (iblock % config.blocksPerZone + u64OfInt (aufsNewZone sb zmap).1))
        inode := inode.setZonePtr ⟨_, hidx⟩ (u64OfInt (aufsNewZone sb zmap).1)
        zmap := (aufsNewZone sb zmap).2
        newZone := some (aufsNewZone sb zmap).1 } := by
  rw [R.getBlock_eq H hidx, if_pos hptr]

/-- What lies below the end of nine zones has a zone pointer. -/
theorem zoneIdx_lt (R : sb.Reads config) (H : config.Accepted)
    (hpos : pos < ZONE_PTR_IN_INODE_NUM * config.zoneSize) :
    pos / sb.sBlocksize / config.blocksPerZone < ZONE_PTR_IN_INODE_NUM := by
  rw [R.blocksize, Nat.div_div_eq_div_mul, Nat.mul_comm, ← H.zoneSize_eq]
  exact Nat.div_lt_of_lt_mul (by rwa [Nat.mul_comm])

end Sb.Reads

/-! ## The first calls after mounting -/

theorem firstBlock_idx (config : Configuration) :
    0 / config.blocksPerZone < ZONE_PTR_IN_INODE_NUM := by
  rw [Nat.zero_div]
  decide

/-- A map as mkfs writes it, once mounted: 2 is the lowest free number. -/
theorem eq_two_of_lowest {m : Mem} {bits n : Nat} (h2 : 2 < bits) (hn : 2 < n)
    (hmap : ∀ i < bits, bit m i = false ↔ 2 ≤ i ∧ i < n) (hj : j < bits)
    (hbit : bit (minixSetBit 0 m) j = false)
    (hlow : ∀ k < j, bit (minixSetBit 0 m) k = true) : j = 2 := by
  have hset : ∀ k, bit (minixSetBit 0 m) k = if k = 0 then true else bit m k := by
    intro k
    rw [minixSetBit, bit_setBit]
  have hge : 2 ≤ j := by
    rw [hset] at hbit
    split at hbit
    · cases hbit
    · exact ((hmap j hj).mp hbit).1
  by_contra hne
  have htwo := hlow 2 (by omega)
  rw [hset, if_neg (by decide), (hmap 2 h2).mpr ⟨by omega, hn⟩] at htwo
  cases htwo

theorem not_full_of_formatted {m : Mem} {bits n : Nat} (h2 : 2 < bits) (hn : 2 < n)
    (hmap : ∀ i < bits, bit m i = false ↔ 2 ≤ i ∧ i < n) :
    ¬∀ j < bits, bit (minixSetBit 0 m) j = true := by
  intro hfull
  have htwo := hfull 2 h2
  rw [minixSetBit, bit_setBit, if_neg (by decide), (hmap 2 h2).mpr ⟨by omega, hn⟩] at htwo
  cases htwo

namespace Sb.Reads

theorem newInode_mounted {image : Image} {env : MkfsEnv} (R : sb.Reads config)
    (H : config.Accepted) (hf : image.Formatted config env) (task : Task) (new dir : AufsInode)
    (mode : Nat) :
    aufsNewInode task sb (fun _ => minixSetBit 0 image.inodeMap) (some new) dir mode =
      (.ok (initInode task new dir mode 2),
        Function.update (fun _ => minixSetBit 0 image.inodeMap) 0
          (minixSetBit 2 (minixSetBit 0 image.inodeMap))) := by
  have hbs := H.blockSize_cases
  have h4 := H.four_le_numInodes
  have hmap := hf.inodeMap
  rw [← R.blocksize, Nat.mul_comm] at hmap
  rw [← R.blocksize] at hbs
  rcases aufsNewInode_cases R.inodeMapBlocks task (fun _ => minixSetBit 0 image.inodeMap) new dir
    mode with ⟨hfull, -⟩ | ⟨j, hj, hbit, hlow, heq⟩
  · exact absurd hfull (not_full_of_formatted (by omega) (by omega) hmap)
  · obtain rfl : j = 2 := eq_two_of_lowest (by omega) (by omega) hmap hj hbit hlow
    rw [heq, if_neg (by decide)]

theorem newZone_mounted {image : Image} {env : MkfsEnv} (R : sb.Reads config)
    (H : config.Accepted) (hf : image.Formatted config env) :
    aufsNewZone sb (fun _ => minixSetBit 0 image.zoneMap) =
      (sb.sbi.zoneBlock 2,
        Function.update (fun _ => minixSetBit 0 image.zoneMap) 0
          (minixSetBit 2 (minixSetBit 0 image.zoneMap))) := by
  have hbs := H.blockSize_cases
  have h3 := H.three_lt
  have hmap := hf.zoneMap
  rw [← R.blocksize, Nat.mul_comm] at hmap
  rw [← R.blocksize] at hbs
  rcases aufsNewZone_cases R.zoneMapBlocks (R.bits_lt H) (fun _ => minixSetBit 0 image.zoneMap)
    with ⟨hfull, -⟩ | ⟨j, hj, hbit, hlow, heq⟩
  · exact absurd hfull (not_full_of_formatted (by omega) (by omega) hmap)
  · obtain rfl : j = 2 := eq_two_of_lowest (by omega) (by omega) hmap hj hbit hlow
    exact heq

end Sb.Reads

/-! ## Zones of a mounted image -/

/-- A mounted image of `config` all of whose zones have block numbers below `2 ^ 31`. -/
structure Mounted (config : Configuration) (sb : Sb) : Prop where
  accepted : config.Accepted
  reads : sb.Reads config
  fit : config.numZones * config.blocksPerZone + sb.sbi.dataBase < 2 ^ 31

namespace Mounted

theorem blocksize_pos (M : Mounted config sb) : 0 < sb.sBlocksize := by
  rw [M.reads.blocksize]
  exact M.accepted.blockSize_pos

theorem zoneStart_lt (M : Mounted config sb) (hj : j < config.numZones) :
    sb.zoneStart config j + config.blocksPerZone < 2 ^ 31 := by
  have hmul : (j + 1) * config.blocksPerZone ≤ config.numZones * config.blocksPerZone :=
    Nat.mul_le_mul_right _ hj
  have hfit := M.fit
  rw [Nat.add_mul, Nat.one_mul] at hmul
  unfold Sb.zoneStart
  omega

theorem zoneStart_ge (M : Mounted config sb) (hj : 2 ≤ j) :
    2 * config.blocksPerZone + 1024 ≤ sb.zoneStart config j := by
  have hmul : 2 * config.blocksPerZone ≤ j * config.blocksPerZone := Nat.mul_le_mul_right _ hj
  have hbase := (M.reads.dataBase_ge M.accepted).1
  unfold Sb.zoneStart
  omega

/-- A block of a data zone determines the zone and the offset in it. -/
theorem zoneStart_inj (h : r + sb.zoneStart config j = r' + sb.zoneStart config j')
    (hr : r < config.blocksPerZone) (hr' : r' < config.blocksPerZone) : j = j' ∧ r = r' := by
  unfold Sb.zoneStart at h
  have h' : r + config.blocksPerZone * j = r' + config.blocksPerZone * j' := by
    rw [Nat.mul_comm _ j, Nat.mul_comm _ j']
    omega
  have hpos : 0 < config.blocksPerZone := by omega
  constructor
  · have := congrArg (· / config.blocksPerZone) h'
    simpa [Nat.add_mul_div_left, hpos, Nat.div_eq_of_lt hr, Nat.div_eq_of_lt hr'] using this
  · have := congrArg (· % config.blocksPerZone) h'
    simpa [Nat.add_mul_mod_self_left, Nat.mod_eq_of_lt hr, Nat.mod_eq_of_lt hr'] using this

/-- The zone map is full, or `aufs_new_zone` takes the zone of the lowest clear bit. -/
theorem newZone_cases (M : Mounted config sb) (zmap : MapBlocks)
    (hclear : ∀ j < 8 * sb.sBlocksize, bit (zmap 0) j = false → 2 ≤ j ∧ j < config.numZones) :
    ((∀ j < 8 * sb.sBlocksize, bit (zmap 0) j = true) ∧ aufsNewZone sb zmap = (0, zmap)) ∨
    ∃ j, 2 ≤ j ∧ j < config.numZones ∧ bit (zmap 0) j = false ∧
      aufsNewZone sb zmap = (((sb.zoneStart config j : Nat) : Int),
        Function.update zmap 0 (minixSetBit j (zmap 0))) := by
  rcases aufsNewZone_cases M.reads.zoneMapBlocks (M.reads.bits_lt M.accepted) zmap with
    hfull | ⟨j, hj, hbit, -, heq⟩
  · exact .inl hfull
  · obtain ⟨hj2, hjn⟩ := hclear j hj hbit
    have hlt := M.zoneStart_lt hjn
    have hbits := M.reads.bits_lt M.accepted
    refine .inr ⟨j, hj2, hjn, hbit, ?_⟩
    rw [heq, M.reads.zoneBlock_of_lt M.accepted (by omega)
      (Nat.lt_of_le_of_lt (Nat.le_add_right ..) hlt)]
    rfl

end Mounted
end Aufs
