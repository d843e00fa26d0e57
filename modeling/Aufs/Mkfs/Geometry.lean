import Aufs.Mkfs.Format

/-! The geometry of an accepted configuration: a zone is a whole number of blocks, the metadata
takes at most 515 blocks, and mkfs starts the data region at block 1024. -/

namespace Aufs
open Word

namespace Configuration

/-- `ZoneSize() / BlockSize()` -/
def blocksPerZone (config : Configuration) : Nat := config.zoneSize / config.blockSize

/-- `BlockSize() / sizeof(struct aufs_inode)` -/
def inodesInBlock (config : Configuration) : Nat := config.blockSize / sizeofInode

/-- The super block, the maps and the inode table. -/
def metadataBlocks (config : Configuration) : Nat :=
  1 + config.numInodeMapBlocks + config.numZoneMapBlocks + config.numInodeEntryBlocks

namespace Accepted

variable {config : Configuration}

theorem zoneSize_cases (H : config.Accepted) :
    (config.blockSize = 512 ∨ config.blockSize = 1024 ∨ config.blockSize = 2048 ∨
      config.blockSize = 4096) ∧
    config.zoneSize = config.blocksPerZone * config.blockSize ∧
    1 ≤ config.blocksPerZone ∧ config.blocksPerZone ≤ 2 ^ 19 ∧
    config.blocksPerZone = (if config.zoneSize > 4096 then config.zoneSize / 4096 else 1) := by
  obtain ⟨k, hk, hk', hz⟩ := H.zoneSize_pow
  unfold blocksPerZone blockSize blockSizeOf
  by_cases hlarge : config.zoneSize > 4096
  · have hk13 : 12 < k := by
      by_contra hle
      have : 2 ^ k ≤ 2 ^ 12 := Nat.pow_le_pow_right (by omega) (by omega)
      omega
    have hsplit : 2 ^ k = 2 ^ (k - 12) * 4096 := by
      rw [show (4096 : Nat) = 2 ^ 12 from rfl, ← Nat.pow_add]
      congr 1
      omega
    have hpos : 1 ≤ 2 ^ (k - 12) := Nat.one_le_two_pow
    have hle : 2 ^ (k - 12) ≤ 2 ^ 19 := Nat.pow_le_pow_right (by omega) (by omega)
    simp only [if_pos hlarge, or_true, true_and, and_true]
    omega
  · have hk12 : k ≤ 12 := by
      by_contra hlt
      have : 2 ^ 13 ≤ 2 ^ k := Nat.pow_le_pow_right (by omega) (by omega)
      omega
    simp only [if_neg hlarge]
    have hself : config.zoneSize / config.zoneSize = 1 := Nat.div_self (by rw [hz]; positivity)
    rw [hself]
    interval_cases k <;> omega

theorem blockSize_cases (H : config.Accepted) :
    config.blockSize = 512 ∨ config.blockSize = 1024 ∨ config.blockSize = 2048 ∨
      config.blockSize = 4096 := H.zoneSize_cases.1

theorem zoneSize_eq (H : config.Accepted) :
    config.zoneSize = config.blocksPerZone * config.blockSize := H.zoneSize_cases.2.1

theorem blocksPerZone_pos (H : config.Accepted) : 1 ≤ config.blocksPerZone :=
  H.zoneSize_cases.2.2.1

theorem blocksPerZone_le (H : config.Accepted) : config.blocksPerZone ≤ 2 ^ 19 :=
  H.zoneSize_cases.2.2.2.1

/-- The kernel's way to the same number. -/
theorem blocksPerZone_eq (H : config.Accepted) :
    config.blocksPerZone = if config.zoneSize > 4096 then config.zoneSize / 4096 else 1 :=
  H.zoneSize_cases.2.2.2.2

theorem blockSize_pos (H : config.Accepted) : 0 < config.blockSize := by
  have := H.blockSize_cases
  omega

theorem zoneSize_ge (H : config.Accepted) : 512 ≤ config.zoneSize := by
  obtain ⟨k, hk, -, hz⟩ := H.zoneSize_pow
  have : 2 ^ 9 ≤ 2 ^ k := Nat.pow_le_pow_right (by omega) hk
  omega

theorem zoneSize_lt (H : config.Accepted) : config.zoneSize < 2 ^ 32 := by
  obtain ⟨k, -, hk, hz⟩ := H.zoneSize_pow
  have : 2 ^ k < 2 ^ 32 := Nat.pow_lt_pow_right (by omega) hk
  omega

/-- Below 4096 bytes a zone is one block. -/
theorem blockSize_eq_zoneSize (h : config.zoneSize ≤ 4096) :
    config.blockSize = config.zoneSize := by
  unfold blockSize blockSizeOf
  rw [if_neg (by omega)]

theorem inodesInBlock_cases (H : config.Accepted) :
    config.inodesInBlock * sizeofInode = config.blockSize ∧ 8 ≤ config.inodesInBlock ∧
      config.inodesInBlock ≤ 64 := by
  have := H.blockSize_cases
  unfold inodesInBlock sizeofInode
  omega

/-- The inode table has a slot for every zone, and no block too many. -/
theorem inodeTable_bounds (H : config.Accepted) :
    config.numZones ≤ config.numInodeEntryBlocks * config.inodesInBlock ∧
      config.numInodeEntryBlocks * config.inodesInBlock < config.numZones + config.inodesInBlock ∧
      1 ≤ config.numInodeEntryBlocks ∧ config.numInodeEntryBlocks ≤ 512 := by
  have hin : config.numInodeEntryBlocks =
      (config.numZones + config.inodesInBlock - 1) / config.inodesInBlock := H.inodeEntryBlocks
  have h3 := H.three_lt
  have hle := H.numZones_le
  have hcases := H.blockSize_cases
  have hib : config.inodesInBlock = config.blockSize / 64 := rfl
  rcases hcases with h | h | h | h <;> rw [h] at hib hle <;> norm_num at hib <;>
    rw [hib] at hin ⊢ <;> omega

theorem metadataBlocks_eq (H : config.Accepted) :
    config.metadataBlocks = 3 + config.numInodeEntryBlocks := by
  unfold metadataBlocks
  rw [H.inodeMapBlocks, H.zoneMapBlocks]

theorem metadataBlocks_le (H : config.Accepted) : config.metadataBlocks ≤ 515 := by
  have := H.inodeTable_bounds
  rw [H.metadataBlocks_eq]
  omega

/-- mkfs's data region starts at block 1024, whatever the geometry. -/
theorem mkfsZoneBlock_eq (H : config.Accepted) :
    mkfsZoneBlock config j = u32 (j * config.blocksPerZone + 1024) := by
  have hle := H.metadataBlocks_le
  have hmeta : u32 (config.numInodeMapBlocks + config.numInodeEntryBlocks +
      config.numZoneMapBlocks + 1) = config.metadataBlocks := by
    unfold metadataBlocks at *
    rw [u32_of_lt (by omega)]
    omega
  have hround : config.calculateAlignedNumBlocks config.metadataBlocks = 1024 := by
    have hpos : 1 ≤ config.metadataBlocks := by unfold metadataBlocks; omega
    simp only [calculateAlignedNumBlocks, integerRoundUpDivision, H.alignment]
    have hfit : u32 (config.metadataBlocks + 1024 - 1) = config.metadataBlocks + 1024 - 1 :=
      u32_of_lt (by omega)
    rw [hfit, u32_of_lt (by omega)]
    omega
  unfold mkfsZoneBlock
  rw [hmeta, hround]
  rfl

/-- The root directory's zone. -/
theorem rootBlock_eq (H : config.Accepted) :
    mkfsZoneBlock config 1 = config.blocksPerZone + 1024 := by
  have := H.blocksPerZone_le
  rw [H.mkfsZoneBlock_eq, Nat.one_mul, u32_of_lt (by omega)]

/-- Inode numbers stay below the size of the inode map. -/
theorem numInodes_eq (H : config.Accepted) :
    SuperBlock.numInodes config =
      min (config.numInodeEntryBlocks * config.inodesInBlock) (config.blockSize * 8) := by
  have h1 := H.inodeTable_bounds
  have h2 := H.inodesInBlock_cases
  have h3 := H.numZones_le
  have h4 := H.blockSize_cases
  simp only [SuperBlock.numInodes, H.inodeMapBlocks, Nat.one_mul]
  change min (u32 (config.numInodeEntryBlocks * config.inodesInBlock)) _ = _
  rw [u32_of_lt (by omega), u32_of_lt (by omega)]

theorem four_le_numInodes (H : config.Accepted) : 4 ≤ SuperBlock.numInodes config := by
  have h1 := H.inodeTable_bounds
  have h2 := H.three_lt
  have h3 := H.numZones_le
  rw [H.numInodes_eq]
  omega

end Accepted
end Configuration
end Aufs
