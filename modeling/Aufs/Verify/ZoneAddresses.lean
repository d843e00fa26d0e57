import Aufs.Verify.Layout
import Aufs.Verify.GetBlock

/-! The numbers of zones on their way from `aufs_new_zone` to the disk. The number is computed in
`unsigned long` and returned as `int`; `aufs_get_block` extends its sign into the 64 bits of
`ai_zone_ptr`, of which `V2_minix_update_inode` stores the lower 32. `VerifyDevice` takes the size
of all zones modulo `2 ^ 32`, so accepted configurations reach the point where this shows. -/

namespace Aufs
open Bytes Word

variable {config : Configuration} {sb : Sb}

/-- A call of `aufs_get_block` on an unmapped block that takes bit `j` of the zone map. -/
structure Allocates (config : Configuration) (sb : Sb) (j : Nat) where
  zmap : MapBlocks
  inode : AufsInode
  behind : Nat → Nat
  iblock : Nat
  create : Bool
  idx_lt : iblock / config.blocksPerZone < ZONE_PTR_IN_INODE_NUM
  unmapped : inode.aiZonePtr ⟨_, idx_lt⟩ = 0
  takes : minixFindFirstZeroBit (zmap 0) (8 * sb.sBlocksize) = j

namespace Allocates

/-- What `aufs_new_zone` returns in it. -/
def returned (c : Allocates config sb j) : Int := (aufsNewZone sb c.zmap).1

/-- The inode after it. -/
def mapped (c : Allocates config sb j) : AufsInode :=
  (aufsGetBlock sb c.zmap c.inode c.behind c.iblock sb.sBlocksize c.create).inode

/-- The pointer it stores. -/
def stored (c : Allocates config sb j) : Nat := c.mapped.aiZonePtr ⟨_, c.idx_lt⟩

/-- The pointer once the inode was written over `raw` and read into `other`. -/
def reread (c : Allocates config sb j) (ids : OverflowIds) (other : AufsInode) (raw : Mem) : Nat :=
  (aufsInodeFill other (v2MinixUpdateInode ids c.mapped raw)).aiZonePtr ⟨_, c.idx_lt⟩

theorem lt_bits (R : sb.Reads config) (H : config.Accepted) (hj : j < config.numZones) :
    j < 8 * sb.sBlocksize := by
  have hle := H.numZones_le
  rw [R.blocksize]
  omega

theorem returned_eq (R : sb.Reads config) (H : config.Accepted) (c : Allocates config sb j)
    (hj : j < config.numZones) : c.returned = i32 (sb.zoneStart config j : Nat) := by
  have hbits := R.bits_lt H
  have hlt := lt_bits R H hj
  rw [returned, aufsNewZone_eq R.zoneMapBlocks hbits, c.takes, if_pos hlt,
    R.zoneBlock_eq H (Nat.lt_trans hlt hbits), Sb.zoneStart]

theorem stored_eq (R : sb.Reads config) (H : config.Accepted) (c : Allocates config sb j) :
    c.stored = u64OfInt c.returned := by
  rw [stored, mapped, R.getBlock_unmapped H c.idx_lt c.unmapped, AufsInode.setZonePtr_self,
    returned]

theorem reread_eq (c : Allocates config sb j) (ids : OverflowIds) (other : AufsInode)
    (raw : Mem) : c.reread ids other raw = c.stored % 2 ^ 32 := by
  rw [reread, stored, ← be32_update_zonePtr ids raw]
  rfl

/-- Every zone can be the one that is taken. -/
theorem nonempty (R : sb.Reads config) (H : config.Accepted) (hj : j < config.numZones) :
    Nonempty (Allocates config sb j) := by
  have hbit : ∀ k, bit (fillBits (fun _ => 0) 0 j true) k = decide (k < j) := by
    intro k
    rw [bit_fillBits]
    by_cases hk : k < j
    · rw [if_pos (by omega), decide_eq_true hk]
    · rw [if_neg (by omega), decide_eq_false hk]
      simp [bit]
  refine ⟨{
    zmap := fun _ => fillBits (fun _ => 0) 0 j true
    inode := newInode fun _ => 0
    behind := fun _ => 0
    iblock := 0
    create := true
    idx_lt := firstBlock_idx config
    unmapped := rfl
    takes := minixFindFirstZeroBit_eq (lt_bits R H hj) ?_ ?_ }⟩
  · rw [hbit, decide_eq_false (Nat.lt_irrefl j)]
  · intro k hk
    rw [hbit, decide_eq_true hk]

end Allocates

/-! ## Which addresses wrap -/

namespace Configuration

/-- The first block of the kernel's data region. -/
def dataStart (config : Configuration) : Nat :=
  (config.metadataBlocks + config.blocksPerZone + 1023) / 1024 * 1024

/-- The last zone starts below block `2 ^ 31`. -/
def AddressesFit (config : Configuration) : Prop :=
  (config.numZones - 1) * config.blocksPerZone + config.dataStart < 2 ^ 31

end Configuration

/-- `aufs_new_zone` returns the exact number of the zone's first block. -/
def ReturnsExact (config : Configuration) (sb : Sb) : Prop :=
  ∀ j < config.numZones, ∀ c : Allocates config sb j,
    c.returned = (j * config.blocksPerZone + sb.sbi.dataBase : Nat)

/-- The pointer stored comes back from the disk. -/
def PointersSurvive (config : Configuration) (sb : Sb) : Prop :=
  ∀ j < config.numZones, ∀ (c : Allocates config sb j) (ids : OverflowIds) (other : AufsInode)
    (raw : Mem), c.reread ids other raw = c.stored

/-- Two zones have different pointers. -/
def PointersDistinct (config : Configuration) (sb : Sb) : Prop :=
  ∀ j < config.numZones, ∀ j' < config.numZones, j ≠ j' →
    ∀ (c : Allocates config sb j) (c' : Allocates config sb j'), c.stored ≠ c'.stored

theorem returnsExact_iff (R : sb.Reads config) (H : config.Accepted) :
    ReturnsExact config sb ↔ config.AddressesFit := by
  have hbase : sb.sbi.dataBase = config.dataStart := R.dataBase_eq H
  have h3 := H.three_lt
  constructor
  · intro hexact
    obtain ⟨c⟩ := Allocates.nonempty R H (show config.numZones - 1 < config.numZones by omega)
    have hlast := hexact _ (by omega) c
    have hlt := (i32_bounds (sb.zoneStart config (config.numZones - 1) : Nat)).2
    rw [← c.returned_eq R H (by omega), hlast, hbase] at hlt
    unfold Configuration.AddressesFit
    omega
  · intro hfit j hj c
    have hmul : j * config.blocksPerZone ≤ (config.numZones - 1) * config.blocksPerZone :=
      Nat.mul_le_mul_right _ (by omega)
    unfold Configuration.AddressesFit at hfit
    rw [c.returned_eq R H hj, i32_of_lt]
    · rfl
    · rw [Sb.zoneStart, hbase]
      omega

theorem pointersSurvive_iff (R : sb.Reads config) (H : config.Accepted) :
    PointersSurvive config sb ↔ config.AddressesFit := by
  have hbase : sb.sbi.dataBase = config.dataStart := R.dataBase_eq H
  constructor
  · intro hsurvive
    by_contra hfit
    obtain ⟨j, -, hj, hneg⟩ := exists_negative_zone H R (by
      rw [hbase]
      exact Nat.le_of_not_lt hfit)
    obtain ⟨c⟩ := Allocates.nonempty R H hj
    have hlt := Allocates.lt_bits R H hj
    have hbits := R.bits_lt H
    have hlo := (i32_bounds (sb.zoneStart config j : Nat)).1
    rw [R.zoneBlock_eq H (Nat.lt_trans hlt hbits)] at hneg
    have hsame := hsurvive j hj c defaultIds (newInode fun _ => 0) fun _ => 0
    rw [c.reread_eq, c.stored_eq R H, c.returned_eq R H hj, Sb.zoneStart] at hsame
    rw [Sb.zoneStart] at hlo
    generalize i32 ((j * config.blocksPerZone + sb.sbi.dataBase : Nat) : Int) = x at *
    unfold u64OfInt at hsame
    omega
  · intro hfit j hj c ids other raw
    have hexact := (returnsExact_iff R H).mpr hfit j hj c
    have hlt := (i32_bounds (sb.zoneStart config j : Nat)).2
    rw [← c.returned_eq R H hj, hexact] at hlt
    rw [c.reread_eq, c.stored_eq R H, hexact, u64OfInt_natCast (by omega)]
    exact Nat.mod_eq_of_lt (by omega)

namespace Allocates

theorem stored_eq_iff (R : sb.Reads config) (H : config.Accepted) (c : Allocates config sb j)
    (c' : Allocates config sb j') (hj : j < config.numZones) (hj' : j' < config.numZones) :
    c.stored = c'.stored ↔
      (j * config.blocksPerZone + config.dataStart) % 2 ^ 32 =
        (j' * config.blocksPerZone + config.dataStart) % 2 ^ 32 := by
  have hbase : sb.sbi.dataBase = config.dataStart := R.dataBase_eq H
  rw [c.stored_eq R H, c'.stored_eq R H, c.returned_eq R H hj, c'.returned_eq R H hj',
    u64OfInt_i32_inj, Sb.zoneStart, Sb.zoneStart, hbase]

end Allocates

theorem blocksPerZone_dvd (H : config.Accepted) : config.blocksPerZone ∣ 2 ^ 32 := by
  obtain ⟨k, -, hk, hz⟩ := H.zoneSize_pow
  have hpow : config.blocksPerZone ∣ 2 ^ k := ⟨config.blockSize, by rw [← hz, H.zoneSize_eq]⟩
  exact hpow.trans (pow_dvd_pow 2 (Nat.le_of_lt hk))

/-- Numbers of zones differ modulo `2 ^ 32` while all zones together stay below it. -/
theorem zoneAddress_ne (h : config.numZones * config.blocksPerZone ≤ 2 ^ 32)
    (hpos : 1 ≤ config.blocksPerZone) (hlt : j < j') (hj' : j' < config.numZones) :
    (j * config.blocksPerZone + config.dataStart) % 2 ^ 32 ≠
      (j' * config.blocksPerZone + config.dataStart) % 2 ^ 32 := by
  have hstep : (j + 1) * config.blocksPerZone ≤ j' * config.blocksPerZone :=
    Nat.mul_le_mul_right _ hlt
  have hlast : (j' + 1) * config.blocksPerZone ≤ config.numZones * config.blocksPerZone :=
    Nat.mul_le_mul_right _ hj'
  rw [Nat.add_mul, Nat.one_mul] at hstep hlast
  omega

theorem pointersDistinct_iff (R : sb.Reads config) (H : config.Accepted) :
    PointersDistinct config sb ↔ config.numZones * config.blocksPerZone ≤ 2 ^ 32 := by
  have hpos := H.blocksPerZone_pos
  constructor
  · intro hdistinct
    obtain ⟨q, hq⟩ := blocksPerZone_dvd H
    by_contra hbig
    have hlt : q < config.numZones := by
      by_contra hge
      have hmul : config.numZones * config.blocksPerZone ≤ q * config.blocksPerZone :=
        Nat.mul_le_mul_right _ (Nat.le_of_not_lt hge)
      rw [Nat.mul_comm q, ← hq] at hmul
      exact hbig hmul
    have hq0 : 0 ≠ q := by
      rintro rfl
      cases hq
    obtain ⟨c⟩ := Allocates.nonempty R H (Nat.lt_of_le_of_lt (Nat.zero_le q) hlt)
    obtain ⟨c'⟩ := Allocates.nonempty R H hlt
    refine hdistinct 0 (by omega) q hlt hq0 c c' ((c.stored_eq_iff R H c' (by omega) hlt).mpr ?_)
    rw [Nat.mul_comm q, ← hq, Nat.zero_mul, Nat.zero_add, Nat.add_mod_left]
  · intro hfit j hj j' hj' hne c c' hsame
    rw [c.stored_eq_iff R H c' hj hj'] at hsame
    rcases Nat.lt_or_gt_of_ne hne with hlt | hlt
    · exact zoneAddress_ne hfit hpos hlt hj' hsame
    · exact zoneAddress_ne hfit hpos hlt hj hsame.symm

/-- **Zone addresses**. On a formatted and mounted image of an accepted configuration the numbers
of zones are exact, their pointers survive the inode on disk, and no two zones share a pointer,
exactly if the last zone starts below block `2 ^ 31`. The first two fail beyond it one by one; two
zones share a pointer once all zones together take more than `2 ^ 32` blocks. -/
theorem zone_addresses_iff {deviceSize : String → Nat} {argv : List String} {env : MkfsEnv}
    {fuel : Nat} {dev : Device} {image : Image} (hargs : parseArgs deviceSize argv = .ok config)
    (himage : mkfs env fuel config dev = some image) (hsb : sb = aufsFillSb image.superBlock) :
    (ReturnsExact config sb ∧ PointersSurvive config sb ∧ PointersDistinct config sb ↔
        config.AddressesFit) ∧
      (ReturnsExact config sb ↔ config.AddressesFit) ∧
      (PointersSurvive config sb ↔ config.AddressesFit) ∧
      (PointersDistinct config sb ↔ config.numZones * config.blocksPerZone ≤ 2 ^ 32) := by
  have H := accepted_of_parseArgs hargs
  have R : sb.Reads config := hsb ▸ aufsFillSb_reads H (mkfs_formatted H himage)
  have hexact := returnsExact_iff R H
  have hsurvive := pointersSurvive_iff R H
  have hdistinct := pointersDistinct_iff R H
  refine ⟨⟨?_, ?_⟩, hexact, hsurvive, hdistinct⟩
  · rintro ⟨hret, -, -⟩
    exact hexact.mp hret
  · intro hfit
    refine ⟨hexact.mpr hfit, hsurvive.mpr hfit, hdistinct.mpr ?_⟩
    have h3 := H.three_lt
    have hlast : config.numZones * config.blocksPerZone =
        (config.numZones - 1) * config.blocksPerZone + config.blocksPerZone := by
      rw [← Nat.succ_mul]
      congr 1
      omega
    unfold Configuration.AddressesFit Configuration.dataStart at hfit
    omega

/-- Eight zones of four blocks. -/
theorem zone_addresses_eightZones :
    ∃ image, mkfs rootEnv 1 eightZones (blankDevice (2 ^ 20)) = some image ∧
      ReturnsExact eightZones (aufsFillSb image.superBlock) := by
  have H := accepted_of_parseArgs eightZones_parsed
  obtain ⟨image, himage, -, -⟩ := exists_image H rootEnv (blankDevice (2 ^ 20))
  refine ⟨image, himage, ((zone_addresses_iff eightZones_parsed himage rfl).1.mpr ?_).1⟩
  unfold Configuration.AddressesFit
  decide

/-- `mkfs.aufs -s 1073741824 -b 32768 /dev/nvme0n1`: zones of 1 GiB, a whole map block of them. -/
def hugeZones : Configuration where
  device := "/dev/nvme0n1"
  sourceDir := ""
  numZones := 32768
  zoneSize := 1073741824
  numInodeEntryBlocks := 512
  numInodeMapBlocks := 1
  numZoneMapBlocks := 1
  numBlockAlignment := 1024

/-- On a device of 1 MiB. Zone 8192 comes out negative and its pointer is cut on disk; zones 2 and
16386 have the same pointer. -/
theorem hugeZones_wrap :
    parseArgs (fun _ => 2 ^ 20) ["-s", "1073741824", "-b", "32768", "/dev/nvme0n1"] =
        .ok hugeZones ∧
      ∃ image, mkfs rootEnv 1 hugeZones (blankDevice (2 ^ 20)) = some image ∧
        (∀ c : Allocates hugeZones (aufsFillSb image.superBlock) 8192, ∀ ids other raw,
          c.returned = -2147220480 ∧ c.stored = 18446744071562331136 ∧
            c.reread ids other raw = 2147746816) ∧
        (∀ (c : Allocates hugeZones (aufsFillSb image.superBlock) 2)
          (c' : Allocates hugeZones (aufsFillSb image.superBlock) 16386), c.stored = c'.stored) ∧
        ¬(ReturnsExact hugeZones (aufsFillSb image.superBlock) ∧
          PointersSurvive hugeZones (aufsFillSb image.superBlock) ∧
          PointersDistinct hugeZones (aufsFillSb image.superBlock)) := by
  have hargs : parseArgs (fun _ => 2 ^ 20)
      ["-s", "1073741824", "-b", "32768", "/dev/nvme0n1"] = .ok hugeZones := rfl
  have H := accepted_of_parseArgs hargs
  obtain ⟨image, himage, -, R⟩ := exists_image H rootEnv (blankDevice (2 ^ 20))
  have hbase : (aufsFillSb image.superBlock).sbi.dataBase = 263168 := R.dataBase_eq H
  have hret : ∀ c : Allocates hugeZones (aufsFillSb image.superBlock) 8192,
      c.returned = -2147220480 := by
    intro c
    rw [c.returned_eq R H (by decide), Sb.zoneStart, hbase]
    decide
  refine ⟨hargs, image, himage, ?_, ?_, ?_⟩
  · intro c ids other raw
    refine ⟨hret c, ?_, ?_⟩
    · rw [c.stored_eq R H, hret c]
      decide
    · rw [c.reread_eq, c.stored_eq R H, hret c]
      decide
  · intro c c'
    rw [c.stored_eq_iff R H c' (by decide) (by decide)]
    decide
  · rintro ⟨hexact, -, -⟩
    have hfit := (returnsExact_iff R H).mp hexact
    unfold Configuration.AddressesFit at hfit
    revert hfit
    decide

end Aufs
