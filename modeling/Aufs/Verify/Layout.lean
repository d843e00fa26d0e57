import Aufs.Verify.SuperBlock
import Mathlib.Data.Int.ConditionallyCompleteOrder
import Mathlib.Order.CompletePartialOrder
import Mathlib.Order.Interval.Set.Disjoint

/-! The two programs' views of the disk. mkfs places the root directory's zone with one formula
and the inode slots with another than the kernel uses after mounting; this module says where they
agree.

* `format_free_space`: after format exactly the zones and inodes from 2 on are free.
* `areas_disjoint`: the areas of a formatted disk never overlap, the root zone and the zones the
  kernel hands out included, and the inode table holds every inode the kernel looks up.
* `zones_on_device_iff`: every zone lies on the device exactly when the data region behind the
  metadata does, which `VerifyDevice` does not check.
* `zone_numbering_iff`: a bit of the zone map means the same blocks to both programs exactly when
  the metadata and one zone fit below block 1024.
* `inode_placement_iff`: both programs place inodes alike exactly when a block holds 64 of them or
  the table has one block. -/

namespace Aufs
open Bytes Word

variable {config : Configuration} {sb : Sb} {image : Image}

/-! ## Example runs

The witnesses below format a blank device of `size` bytes. -/

def blankDevice (size : Nat) : Device := { size := size, bytes := fun _ => 0 }

def rootEnv : MkfsEnv := { time := 0, uid := 0, gid := 0, heap := fun _ _ => 0 }

/-- `mkfs.aufs -b 8 /dev/nvme0n1`, with the default zone size. -/
def eightZones : Configuration where
  device := "/dev/nvme0n1"
  sourceDir := ""
  numZones := 8
  zoneSize := 16384
  numInodeEntryBlocks := 1
  numInodeMapBlocks := 1
  numZoneMapBlocks := 1
  numBlockAlignment := 1024

theorem eightZones_parsed :
    parseArgs (fun _ => 2 ^ 20) ["-b", "8", "/dev/nvme0n1"] = .ok eightZones := by
  decide

/-- The same with room on the device for the blocks of all zones. -/
theorem eightZones_args :
    parseArgs (fun _ => 2 ^ 23) ["-b", "8", "/dev/nvme0n1"] = .ok eightZones := by
  decide

/-- The image of a run, with what the kernel reads off it. -/
theorem exists_image (H : config.Accepted) (env : MkfsEnv) (dev : Device) :
    ∃ image, mkfs env 1 config dev = some image ∧ image.Formatted config env ∧
      (aufsFillSb image.superBlock).Reads config := by
  obtain ⟨image, himage, hf⟩ := mkfs_spec H env 0 dev
  exact ⟨image, himage, hf, aufsFillSb_reads H hf⟩

theorem eightZones_fit (R : sb.Reads eightZones) :
    eightZones.numZones * eightZones.blocksPerZone + sb.sbi.dataBase < 2 ^ 31 := by
  rw [R.dataBase_eq (accepted_of_parseArgs eightZones_parsed)]
  decide

/-- Inode `no` has a slot in the inode table, where mkfs places it. -/
def Configuration.HasInodeSlot (config : Configuration) (no : Nat) : Prop :=
  1 + config.numInodeMapBlocks + config.numZoneMapBlocks ≤ Inode.fillInodeBlock config no ∧
    Inode.fillInodeBlock config no < config.metadataBlocks ∧
    Inode.fillInodeOffset config no + sizeofInode ≤ config.blockSize

theorem hasInodeSlot_of_lt (H : config.Accepted)
    (h : no < config.numInodeEntryBlocks * config.inodesInBlock) : config.HasInodeSlot no := by
  obtain ⟨hsize, hpos, -⟩ := H.inodesInBlock_cases
  have hblock : Inode.fillInodeBlock config no =
      no / config.inodesInBlock + 1 + config.numInodeMapBlocks + config.numZoneMapBlocks := rfl
  have hlt : no / config.inodesInBlock < config.numInodeEntryBlocks :=
    Nat.div_lt_of_lt_mul (by rwa [Nat.mul_comm])
  generalize no / config.inodesInBlock = index at hblock hlt
  refine ⟨by omega, by unfold Configuration.metadataBlocks; omega, ?_⟩
  have hoff : Inode.fillInodeOffset config no = no % config.inodesInBlock * sizeofInode := rfl
  have hmod : no % config.inodesInBlock < config.inodesInBlock := Nat.mod_lt _ (by omega)
  have hmul : (no % config.inodesInBlock + 1) * sizeofInode ≤
      config.inodesInBlock * sizeofInode := Nat.mul_le_mul_right _ hmod
  rw [Nat.add_mul, Nat.one_mul] at hmul
  omega

/-- Every run on an accepted configuration, whatever the device held, passes the assertions of
`MkRootDir` and leaves free exactly the zones from 2 on and the inodes from 2 on, each of which has
a slot. -/
theorem format_free_space {deviceSize : String → Nat} {argv : List String}
    (hargs : parseArgs deviceSize argv = .ok config) (env : MkfsEnv) (fuel : Nat) (dev : Device) :
    ∃ image zoneMap inodeMap, mkfs env (fuel + 1) config dev = some image ∧
      SuperBlock.fillZoneMap config (readBlock env config dev 1) = some zoneMap ∧
      SuperBlock.fillInodeMap config (readBlock env config dev (1 + config.numZoneMapBlocks)) =
        some inodeMap ∧
      SuperBlock.allocateInode config inodeMap = .ok (1, image.inodeMap) ∧
      SuperBlock.allocateZones (fuel + 1) config zoneMap
        (u32 (2 * AUFS_DIR_SIZE + config.zoneSize - 1) / config.zoneSize) =
          some (.ok (1, image.zoneMap)) ∧
      ∀ i < 8 * config.blockSize,
        (bit image.zoneMap i = false ↔ 2 ≤ i ∧ i < config.numZones) ∧
        (bit image.inodeMap i = false ↔ 2 ≤ i ∧
          i < min (config.numInodeEntryBlocks * (config.blockSize / 64)) (8 * config.blockSize)) ∧
        (bit image.inodeMap i = false → config.HasInodeSlot i) := by
  have H := accepted_of_parseArgs hargs
  obtain ⟨image, himage, hf⟩ := mkfs_spec H env fuel dev
  obtain ⟨zoneMap, inodeMap, hzone, hinode, hallocInode, hallocZones⟩ := mkfs_allocates himage
  have hnum : SuperBlock.numInodes config =
      min (config.numInodeEntryBlocks * config.inodesInBlock) (8 * config.blockSize) := by
    rw [H.numInodes_eq, Nat.mul_comm 8]
  refine ⟨image, zoneMap, inodeMap, himage, hzone, hinode, hallocInode, hallocZones, ?_⟩
  intro i hi
  have hi' : i < config.blockSize * 8 := by omega
  have hfree := hf.inodeMap i hi'
  rw [hnum] at hfree
  refine ⟨hf.zoneMap i hi', hfree, ?_⟩
  intro hbit
  exact hasInodeSlot_of_lt H (Nat.lt_of_lt_of_le (hfree.mp hbit).2 (Nat.min_le_left _ _))

theorem format_free_space_eightZones :
    ∃ image, mkfs rootEnv 1 eightZones (blankDevice (2 ^ 20)) = some image ∧
      bit image.zoneMap 1 = true ∧ bit image.zoneMap 7 = false ∧ bit image.zoneMap 8 = true ∧
      bit image.inodeMap 63 = false ∧ eightZones.HasInodeSlot 63 := by
  obtain ⟨image, -, -, himage, -, -, -, -, hbits⟩ :=
    format_free_space eightZones_parsed rootEnv 0 (blankDevice (2 ^ 20))
  have hslot := (hbits 63 (by decide)).2.1.mpr (by decide)
  refine ⟨image, himage, ?_, (hbits 7 (by decide)).1.mpr (by decide), ?_, hslot,
    (hbits 63 (by decide)).2.2 hslot⟩
  · rw [← Bool.not_eq_false, (hbits 1 (by decide)).1]
    decide
  · rw [← Bool.not_eq_false, (hbits 8 (by decide)).1]
    decide

/-! ## Areas of the disk -/

/-- The areas of a formatted disk. -/
inductive Area where
  | superBlock
  | zoneMap
  | inodeMap
  | inodeTable
  | rootZone
  | zone (j : Nat)
  deriving DecidableEq, Repr

namespace Area

/-- The first block of an area. Blocks are integers here, as `aufs_new_zone` returns an `int`. -/
def first (config : Configuration) (sb : Sb) : Area → Int
  | superBlock => 0
  | zoneMap => 1
  | inodeMap => 1 + config.numZoneMapBlocks
  | inodeTable => 1 + config.numInodeMapBlocks + config.numZoneMapBlocks
  | rootZone => mkfsZoneBlock config 1
  | zone j => sb.sbi.zoneBlock j

/-- The number of blocks of an area. -/
def length (config : Configuration) (sb : Sb) : Area → Nat
  | superBlock | zoneMap | inodeMap => 1
  | inodeTable => config.numInodeEntryBlocks
  | rootZone => config.zoneSize / config.blockSize
  | zone _ => sb.sbi.asbBlocksPerZone

def blocks (config : Configuration) (sb : Sb) (a : Area) : Set Int :=
  Set.Ico (a.first config sb) (a.first config sb + a.length config sb)

/-- The areas in use after format: a zone counts when its bit was left clear. -/
def Present (config : Configuration) (image : Image) : Area → Prop
  | zone j => j < config.blockSize * 8 ∧ bit image.zoneMap j = false
  | _ => True

/-- Position in ascending order on the disk. -/
def rank : Area → Nat
  | superBlock => 0
  | zoneMap => 1
  | inodeMap => 2
  | inodeTable => 3
  | rootZone => 4
  | zone j => 5 + j

theorem rank_injective {a b : Area} (h : a.rank = b.rank) : a = b := by
  cases a <;> cases b <;> simp only [rank] at h <;> first | rfl | omega | (congr 1; omega)

theorem first_rootZone (H : config.Accepted) :
    rootZone.first config sb = (config.blocksPerZone + 1024 : Nat) := by
  rw [← H.rootBlock_eq]
  rfl

theorem zone_bounds (hf : image.Formatted config env) (h : (zone j).Present config image) :
    2 ≤ j ∧ j < config.numZones := (hf.zoneMap j h.1).mp h.2

theorem first_zone (H : config.Accepted) (R : sb.Reads config) (hf : image.Formatted config env)
    (hfit : config.numZones * config.blocksPerZone + sb.sbi.dataBase < 2 ^ 31)
    (h : (zone j).Present config image) :
    (zone j).first config sb = (j * config.blocksPerZone + sb.sbi.dataBase : Nat) := by
  have hbs := H.blockSize_cases
  have hle := H.numZones_le
  have hjn := (zone_bounds hf h).2
  have hmul : j * config.blocksPerZone ≤ config.numZones * config.blocksPerZone :=
    Nat.mul_le_mul_right _ (Nat.le_of_lt hjn)
  exact R.zoneBlock_of_lt H (by omega) (by omega)

/-- The areas in front of the data region end below block 1024. -/
theorem end_le_metadata (H : config.Accepted) {a : Area} (ha : a.rank < 4) :
    a.first config sb + a.length config sb ≤ 515 := by
  have hmeta := H.metadataBlocks_le
  have hmetaEq := H.metadataBlocks_eq
  cases a with
  | rootZone | zone =>
    simp only [rank] at ha
    omega
  | _ =>
    simp only [first, length, H.inodeMapBlocks, H.zoneMapBlocks]
    omega

/-- The areas lie on the disk in the order of their ranks. -/
theorem end_le_first (H : config.Accepted) (R : sb.Reads config)
    (hf : image.Formatted config env)
    (hfit : config.numZones * config.blocksPerZone + sb.sbi.dataBase < 2 ^ 31) {a b : Area}
    (ha : a.Present config image) (hb : b.Present config image) (hlt : a.rank < b.rank) :
    a.first config sb + a.length config sb ≤ b.first config sb := by
  have hbase := (R.dataBase_ge H).1
  cases b with
  | zone j =>
    have hj : 2 * config.blocksPerZone ≤ j * config.blocksPerZone :=
      Nat.mul_le_mul_right _ (zone_bounds hf hb).1
    rw [first_zone H R hf hfit hb]
    cases a with
    | zone i =>
      have hij : (i + 1) * config.blocksPerZone ≤ j * config.blocksPerZone :=
        Nat.mul_le_mul_right _ (by simp only [rank] at hlt; omega)
      rw [Nat.add_mul, Nat.one_mul] at hij
      rw [first_zone H R hf hfit ha]
      simp only [length, R.blocksPerZone]
      omega
    | rootZone =>
      rw [first_rootZone H]
      change _ + (config.blocksPerZone : Int) ≤ _
      omega
    | _ =>
      refine Int.le_trans (end_le_metadata H (by decide)) ?_
      omega
  | rootZone =>
    rw [first_rootZone H]
    cases a with
    | rootZone | zone =>
      simp only [rank] at hlt
      omega
    | _ =>
      refine Int.le_trans (end_le_metadata H (by decide)) ?_
      omega
  | _ =>
    cases a with
    | zone =>
      simp only [rank] at hlt
      omega
    | _ =>
      simp only [first, length, rank, H.inodeMapBlocks, H.zoneMapBlocks] at *
      omega

end Area

/-- The inode numbers that format leaves free, and the one it allocates. -/
def Image.UsesInode (image : Image) (config : Configuration) (ino : Nat) : Prop :=
  ino = 1 ∨ ino < config.blockSize * 8 ∧ bit image.inodeMap ino = false

theorem Image.UsesInode.lt (H : config.Accepted) (hf : image.Formatted config env)
    (h : image.UsesInode config ino) : 1 ≤ ino ∧ ino < SuperBlock.numInodes config := by
  rcases h with rfl | ⟨hlt, hbit⟩
  · have := H.four_le_numInodes
    omega
  · obtain ⟨h2, hn⟩ := (hf.inodeMap ino hlt).mp hbit
    exact ⟨by omega, hn⟩

/-- For every accepted configuration whose zones stay below block `2 ^ 31`, the areas of a
formatted disk are pairwise disjoint, and the inode table holds the block of every inode. -/
theorem areas_disjoint {deviceSize : String → Nat} {argv : List String} {env : MkfsEnv}
    {fuel : Nat} {dev : Device} (hargs : parseArgs deviceSize argv = .ok config)
    (himage : mkfs env fuel config dev = some image)
    (hsb : sb = aufsFillSb image.superBlock)
    (hfit : config.numZones * (config.zoneSize / config.blockSize) + sb.sbi.dataBase < 2 ^ 31) :
    (∀ a b : Area, a.Present config image → b.Present config image → a ≠ b →
      Disjoint (a.blocks config sb) (b.blocks config sb)) ∧
    ∀ ino, image.UsesInode config ino →
      (aufsInodeBlock sb.sbi ino : Int) ∈ Area.inodeTable.blocks config sb := by
  have H := accepted_of_parseArgs hargs
  have hf := mkfs_formatted H himage
  have R : sb.Reads config := hsb ▸ aufsFillSb_reads H hf
  constructor
  · intro a b ha hb hne
    simp only [Area.blocks, Set.Ico_disjoint_Ico]
    rcases Nat.lt_trichotomy a.rank b.rank with hlt | heq | hlt
    · have := Area.end_le_first H R hf hfit ha hb hlt
      omega
    · exact absurd (Area.rank_injective heq) hne
    · have := Area.end_le_first H R hf hfit hb ha hlt
      omega
  · intro ino hino
    obtain ⟨-, hlt⟩ := hino.lt H hf
    rw [H.numInodes_eq] at hlt
    have hmul : config.numInodeEntryBlocks * config.inodesInBlock ≤
        config.numInodeEntryBlocks * 64 := Nat.mul_le_mul_left _ H.inodesInBlock_cases.2.2
    simp only [Area.blocks, Area.first, Area.length, Set.mem_Ico, aufsInodeBlock,
      R.inodeMapBlocks, R.zoneMapBlocks, R.inodesInBlock, H.inodeMapBlocks, H.zoneMapBlocks]
    omega

theorem areas_disjoint_eightZones :
    ∃ image, mkfs rootEnv 1 eightZones (blankDevice (2 ^ 20)) = some image ∧
      Disjoint (Area.rootZone.blocks eightZones (aufsFillSb image.superBlock))
        ((Area.zone 2).blocks eightZones (aufsFillSb image.superBlock)) := by
  have H := accepted_of_parseArgs eightZones_parsed
  obtain ⟨image, himage, hf, R⟩ := exists_image H rootEnv (blankDevice (2 ^ 20))
  refine ⟨image, himage,
    (areas_disjoint eightZones_parsed himage rfl (eightZones_fit R)).1 _ _ trivial ?_
    (by decide)⟩
  exact ⟨by decide, (hf.zoneMap 2 (by decide)).mpr (by decide)⟩

/-! ## Zones on the device -/

/-- The zone at `block` ends at or before the last byte of a device of `size` bytes. -/
def OnDevice (config : Configuration) (size : Nat) (block : Int) : Prop :=
  0 ≤ block ∧ (block + (config.zoneSize / config.blockSize : Nat)) * config.blockSize ≤ size

theorem onDevice_natCast {size block : Nat} :
    OnDevice config size block ↔ (block + config.blocksPerZone) * config.blockSize ≤ size := by
  simp only [OnDevice, Int.natCast_nonneg, true_and]
  exact_mod_cast Iff.rfl

/-- The first zone whose number does not fit an `int` comes out negative. -/
theorem exists_negative_zone (H : config.Accepted) (R : sb.Reads config)
    (h : 2 ^ 31 ≤ (config.numZones - 1) * config.blocksPerZone + sb.sbi.dataBase) :
    ∃ j, 2 ≤ j ∧ j < config.numZones ∧ sb.sbi.zoneBlock j < 0 := by
  have hle := H.blocksPerZone_le
  have hpos := H.blocksPerZone_pos
  have hbase := R.dataBase_lt H
  have hbs := H.blockSize_cases
  have hn := H.numZones_le
  have hex : ∃ j, 2 ^ 31 ≤ j * config.blocksPerZone + sb.sbi.dataBase := ⟨_, h⟩
  have hfind := Nat.find_spec hex
  have hmin : Nat.find hex ≤ config.numZones - 1 := Nat.find_min' hex h
  have htwo : 2 < Nat.find hex := by
    by_contra hlt
    have : Nat.find hex * config.blocksPerZone ≤ 2 * config.blocksPerZone :=
      Nat.mul_le_mul_right _ (by omega)
    omega
  have hprev : ¬2 ^ 31 ≤ (Nat.find hex - 1) * config.blocksPerZone + sb.sbi.dataBase :=
    Nat.find_min hex (by omega)
  generalize Nat.find hex = j at *
  have hstep : j * config.blocksPerZone =
      (j - 1) * config.blocksPerZone + config.blocksPerZone := by
    rw [← Nat.succ_mul]
    congr 1
    omega
  have h3 := H.three_lt
  refine ⟨j, by omega, by omega, ?_⟩
  rw [R.zoneBlock_eq H (by omega)]
  exact i32_neg hfind (by omega)

/-- `VerifyDevice` compares the zones alone with the device. All zones of an accepted
configuration lie on the device exactly when the zones and the blocks in front of them do, and no
block number leaves the range of `int`. -/
theorem zones_on_device_iff {deviceSize : String → Nat} {device dir : String}
    {numZones zoneSize : Nat} {env : MkfsEnv} {fuel : Nat} {dev : Device}
    (hmake : parsedConfiguration device dir numZones zoneSize = .ok config)
    (hverify : verifyConfiguration deviceSize config = .ok config)
    (himage : mkfs env fuel config dev = some image)
    (hsb : sb = aufsFillSb image.superBlock) :
    (OnDevice config (deviceSize config.device) (mkfsZoneBlock config 1) ∧
      ∀ j, j < config.blockSize * 8 → bit image.zoneMap j = false →
        OnDevice config (deviceSize config.device) (sb.sbi.zoneBlock j)) ↔
    (config.numZones - 1) * (config.zoneSize / config.blockSize) + sb.sbi.dataBase < 2 ^ 31 ∧
      (config.numZones * (config.zoneSize / config.blockSize) + sb.sbi.dataBase) *
        config.blockSize ≤ deviceSize config.device := by
  have H := accepted_of_verify hmake hverify
  have hf := mkfs_formatted H himage
  have R : sb.Reads config := hsb ▸ aufsFillSb_reads H hf
  have h3 := H.three_lt
  have hle := H.numZones_le
  have hbs := H.blockSize_cases
  have hbase := (R.dataBase_ge H).1
  have hlast : config.numZones * config.blocksPerZone =
      (config.numZones - 1) * config.blocksPerZone + config.blocksPerZone := by
    rw [← Nat.succ_mul]
    congr 1
    omega
  constructor
  · rintro ⟨-, hzones⟩
    have hfit : (config.numZones - 1) * config.blocksPerZone + sb.sbi.dataBase < 2 ^ 31 := by
      by_contra hge
      obtain ⟨j, hj2, hjn, hneg⟩ := exists_negative_zone H R (by omega)
      have hj := hzones j (by omega) ((hf.zoneMap j (by omega)).mpr ⟨hj2, hjn⟩)
      have := hj.1
      omega
    refine ⟨hfit, ?_⟩
    have hj := hzones (config.numZones - 1) (by omega)
      ((hf.zoneMap _ (by omega)).mpr ⟨by omega, by omega⟩)
    rw [R.zoneBlock_of_lt H (by omega) hfit, onDevice_natCast] at hj
    change (config.numZones * config.blocksPerZone + _) * _ ≤ _
    rwa [hlast, Nat.add_right_comm]
  · rintro ⟨hfit, hsize⟩
    change (config.numZones * config.blocksPerZone + _) * _ ≤ _ at hsize
    change (config.numZones - 1) * config.blocksPerZone + _ < _ at hfit
    constructor
    · rw [H.rootBlock_eq, onDevice_natCast]
      have htwo : 2 * config.blocksPerZone ≤ config.numZones * config.blocksPerZone :=
        Nat.mul_le_mul_right _ (by omega)
      exact Nat.le_trans (Nat.mul_le_mul_right _ (by omega)) hsize
    · intro j hj hbit
      obtain ⟨hj2, hjn⟩ := (hf.zoneMap j hj).mp hbit
      have hmul : j * config.blocksPerZone ≤ (config.numZones - 1) * config.blocksPerZone :=
        Nat.mul_le_mul_right _ (by omega)
      rw [R.zoneBlock_of_lt H (by omega) (by omega), onDevice_natCast]
      exact Nat.le_trans (Nat.mul_le_mul_right _ (by omega)) hsize

/-- A device that holds the eight zones and two mebibytes more. -/
theorem zones_on_device_eightZones :
    ∃ image, mkfs rootEnv 1 eightZones (blankDevice (2 ^ 23)) = some image ∧
      OnDevice eightZones (2 ^ 23) (mkfsZoneBlock eightZones 1) := by
  have H := accepted_of_parseArgs eightZones_parsed
  obtain ⟨image, himage, -, R⟩ := exists_image H rootEnv (blankDevice (2 ^ 23))
  have hmake : parsedConfiguration "/dev/nvme0n1" "" 8 16384 = .ok eightZones := rfl
  have hverify : verifyConfiguration (fun _ => 2 ^ 23) eightZones = .ok eightZones := rfl
  have hbase : (aufsFillSb image.superBlock).sbi.dataBase = 1024 := R.dataBase_eq H
  refine ⟨image, himage, ((zones_on_device_iff hmake hverify himage rfl).mpr ?_).1⟩
  rw [hbase]
  decide

/-- Eight zones of 16 KiB are accepted on a device of 1 MiB, and the root directory's zone starts
at 4 MiB. -/
theorem rootZone_off_device :
    verifyConfiguration (fun _ => 2 ^ 20) eightZones = .ok eightZones ∧
      ¬OnDevice eightZones (2 ^ 20) (mkfsZoneBlock eightZones 1) := by
  have H := accepted_of_parseArgs eightZones_parsed
  refine ⟨rfl, ?_⟩
  rw [H.rootBlock_eq, onDevice_natCast]
  decide

/-! ## Zone numbers -/

/-- mkfs adds the zone offset after rounding up, the kernel one zone before. -/
theorem zone_numbering_iff {deviceSize : String → Nat} {argv : List String} {env : MkfsEnv}
    {fuel : Nat} {dev : Device} (hargs : parseArgs deviceSize argv = .ok config)
    (himage : mkfs env fuel config dev = some image)
    (hsb : sb = aufsFillSb image.superBlock) (hj : j < config.numZones) :
    (mkfsZoneBlock config j : Int) = sb.sbi.zoneBlock j ↔
      1 + config.numInodeMapBlocks + config.numZoneMapBlocks + config.numInodeEntryBlocks +
        config.zoneSize / config.blockSize ≤ 1024 := by
  have H := accepted_of_parseArgs hargs
  have hf := mkfs_formatted H himage
  have R : sb.Reads config := hsb ▸ aufsFillSb_reads H hf
  have hbs := H.blockSize_cases
  have hle := H.numZones_le
  have hlt := R.dataBase_lt H
  have hge := R.dataBase_ge H
  have hbase := R.dataBase_eq H
  change _ ↔ config.metadataBlocks + config.blocksPerZone ≤ 1024
  rw [H.mkfsZoneBlock_eq, R.zoneBlock_eq H (by omega)]
  constructor
  · intro heq
    -- both sides modulo 2 ^ 32
    have hmod := i32_emod ((j * config.blocksPerZone + sb.sbi.dataBase : Nat) : Int)
    rw [← heq, u32] at hmod
    omega
  · intro hfit
    have hone : sb.sbi.dataBase = 1024 := by omega
    have hmul : j * config.blocksPerZone ≤ 32768 * 1024 :=
      Nat.mul_le_mul (by omega) (by omega)
    rw [hone, i32_of_lt (by omega), u32_of_lt (by omega)]

theorem zone_numbering_eightZones :
    ∃ image, mkfs rootEnv 1 eightZones (blankDevice (2 ^ 20)) = some image ∧
      (mkfsZoneBlock eightZones 7 : Int) = (aufsFillSb image.superBlock).sbi.zoneBlock 7 := by
  have H := accepted_of_parseArgs eightZones_parsed
  obtain ⟨image, himage, -, -⟩ := exists_image H rootEnv (blankDevice (2 ^ 20))
  exact ⟨image, himage,
    (zone_numbering_iff eightZones_parsed himage rfl (by decide)).mpr (by decide)⟩

/-- `mkfs.aufs -s 4194304 -b 4 /dev/nvme0n1`: zones of 1024 blocks. -/
def largeZones : Configuration where
  device := "/dev/nvme0n1"
  sourceDir := ""
  numZones := 4
  zoneSize := 4194304
  numInodeEntryBlocks := 1
  numInodeMapBlocks := 1
  numZoneMapBlocks := 1
  numBlockAlignment := 1024

/-- mkfs puts the root directory, zone 1, at block 2048; the kernel takes bit 1 for block 3072. -/
theorem largeZones_numbered_apart :
    parseArgs (fun _ => 2 ^ 24) ["-s", "4194304", "-b", "4", "/dev/nvme0n1"] = .ok largeZones ∧
    ∃ image, mkfs rootEnv 1 largeZones (blankDevice (2 ^ 24)) = some image ∧
      1 < largeZones.numZones ∧ mkfsZoneBlock largeZones 1 = 2048 ∧
      (aufsFillSb image.superBlock).sbi.zoneBlock 1 = 3072 := by
  have hargs : parseArgs (fun _ => 2 ^ 24) ["-s", "4194304", "-b", "4", "/dev/nvme0n1"] =
      .ok largeZones := rfl
  have H := accepted_of_parseArgs hargs
  obtain ⟨image, himage, -, R⟩ := exists_image H rootEnv (blankDevice (2 ^ 24))
  refine ⟨hargs, image, himage, by decide, H.rootBlock_eq, ?_⟩
  have hbase : (aufsFillSb image.superBlock).sbi.dataBase = 2048 := R.dataBase_eq H
  rw [R.zoneBlock_of_lt H (by decide) (by rw [hbase]; decide), hbase]
  decide

/-! ## Inode slots -/

/-- The kernel and mkfs look for inode `ino` in the same place, and the slot ends inside the
block. -/
def PlacedAlike (config : Configuration) (sb : Sb) (ino : Nat) : Prop :=
  aufsInodeBlock sb.sbi ino = Inode.fillInodeBlock config ino ∧
    aufsInodeOffset sb.sbi ino = Inode.fillInodeOffset config ino ∧
    aufsInodeOffset sb.sbi ino + 64 ≤ sb.sBlocksize

/-- The byte address of an inode's slot, as the kernel computes it. -/
def slotAddress (sb : Sb) (ino : Nat) : Nat :=
  aufsInodeBlock sb.sbi ino * sb.sBlocksize + aufsInodeOffset sb.sbi ino

/-- The kernel counts 64 inodes in a block of any size. -/
theorem placedAlike_iff (H : config.Accepted) (R : sb.Reads config) (ino : Nat) :
    PlacedAlike config sb ino ↔
      ino / 64 = ino / config.inodesInBlock ∧ ino % 64 = ino % config.inodesInBlock ∧
        64 * (ino % 64) + 64 ≤ config.blockSize := by
  unfold PlacedAlike aufsInodeBlock aufsInodeOffset Inode.fillInodeBlock Inode.fillInodeOffset
  change _ ∧ _ = ino % config.inodesInBlock * 64 ∧ _ ↔ _
  rw [R.inodesInBlock, R.inodeMapBlocks, R.zoneMapBlocks, H.inodeMapBlocks, H.zoneMapBlocks,
    R.blocksize]
  change 1 + 1 + 1 + ino / 64 = ino / config.inodesInBlock + 1 + 1 + 1 ∧ _ ↔ _
  constructor
  · rintro ⟨h1, h2, h3⟩
    exact ⟨by omega, by omega, h3⟩
  · rintro ⟨h1, h2, h3⟩
    exact ⟨by omega, by omega, h3⟩

/-- A slot placed as mkfs does it lies at a multiple of its size. -/
theorem slotAddress_eq (H : config.Accepted) (R : sb.Reads config)
    (h : PlacedAlike config sb ino) : slotAddress sb ino = 3 * config.blockSize + 64 * ino := by
  obtain ⟨hin, -, -⟩ := H.inodesInBlock_cases
  simp only [sizeofInode] at hin
  obtain ⟨h1, h2, -⟩ := (placedAlike_iff H R ino).mp h
  unfold slotAddress aufsInodeBlock aufsInodeOffset
  rw [R.inodesInBlock, R.inodeMapBlocks, R.zoneMapBlocks, R.blocksize, h1, h2, ← hin]
  have hdiv := Nat.div_add_mod ino config.inodesInBlock
  generalize ino / config.inodesInBlock = q at *
  generalize ino % config.inodesInBlock = r at *
  rw [← hdiv]
  ring

/-- With blocks of less than 4096 bytes the first inode of the second block of the table is
misplaced. -/
theorem placedAlike_only (H : config.Accepted) (R : sb.Reads config)
    (hf : image.Formatted config env)
    (hall : ∀ ino, image.UsesInode config ino → PlacedAlike config sb ino) :
    4096 ≤ config.zoneSize ∨ config.numZones ≤ config.inodesInBlock := by
  obtain ⟨hin, hin8, hin64⟩ := H.inodesInBlock_cases
  obtain ⟨htable, htable', hib, -⟩ := H.inodeTable_bounds
  simp only [sizeofInode] at hin
  by_contra hcond
  have hsmall : config.zoneSize < 4096 ∧ config.inodesInBlock < config.numZones := by omega
  have hlt64 : config.inodesInBlock < 64 := by
    have hbs : config.blockSize = config.zoneSize :=
      Configuration.Accepted.blockSize_eq_zoneSize (by omega)
    omega
  have huse : image.UsesInode config config.inodesInBlock := by
    have hle := H.numZones_le
    refine .inr ⟨by omega, (hf.inodeMap _ (by omega)).mpr ⟨by omega, ?_⟩⟩
    rw [H.numInodes_eq]
    omega
  obtain ⟨h1, -, -⟩ := (placedAlike_iff H R _).mp (hall _ huse)
  rw [Nat.div_self (by omega), Nat.div_eq_of_lt hlt64] at h1
  omega

theorem placedAlike_of_uses (H : config.Accepted) (R : sb.Reads config)
    (hf : image.Formatted config env)
    (hcond : 4096 ≤ config.zoneSize ∨ config.numZones ≤ config.inodesInBlock)
    (hino : image.UsesInode config ino) : PlacedAlike config sb ino := by
  obtain ⟨hin, hin8, hin64⟩ := H.inodesInBlock_cases
  obtain ⟨htable, htable', hib, -⟩ := H.inodeTable_bounds
  simp only [sizeofInode] at hin
  obtain ⟨-, hlt⟩ := hino.lt H hf
  rw [placedAlike_iff H R]
  rcases hcond with hlarge | hone
  · have hbs : config.inodesInBlock = 64 := by
      have hblock : config.blockSize = 4096 := by
        unfold Configuration.blockSize blockSizeOf
        split <;> omega
      omega
    rw [hbs]
    omega
  · -- one block of the table holds them all
    have hib1 : config.numInodeEntryBlocks = 1 := by
      by_contra hne
      have : 2 * config.inodesInBlock ≤ config.numInodeEntryBlocks * config.inodesInBlock :=
        Nat.mul_le_mul_right _ (by omega)
      omega
    rw [H.numInodes_eq, hib1] at hlt
    rw [Nat.mod_eq_of_lt (by omega), Nat.mod_eq_of_lt (by omega), Nat.div_eq_of_lt (by omega),
      Nat.div_eq_of_lt (by omega)]
    omega

theorem inode_placement_iff {deviceSize : String → Nat} {argv : List String} {env : MkfsEnv}
    {fuel : Nat} {dev : Device} (hargs : parseArgs deviceSize argv = .ok config)
    (himage : mkfs env fuel config dev = some image)
    (hsb : sb = aufsFillSb image.superBlock) :
    ((∀ ino, image.UsesInode config ino → PlacedAlike config sb ino) ∧
      ∀ ino ino', image.UsesInode config ino → image.UsesInode config ino' → ino ≠ ino' →
        slotAddress sb ino + 64 ≤ slotAddress sb ino' ∨
          slotAddress sb ino' + 64 ≤ slotAddress sb ino) ↔
    4096 ≤ config.zoneSize ∨ config.numZones ≤ config.blockSize / sizeofInode := by
  have H := accepted_of_parseArgs hargs
  have hf := mkfs_formatted H himage
  have R : sb.Reads config := hsb ▸ aufsFillSb_reads H hf
  constructor
  · rintro ⟨hall, -⟩
    exact placedAlike_only H R hf hall
  · intro hcond
    have hall : ∀ ino, image.UsesInode config ino → PlacedAlike config sb ino :=
      fun _ hino => placedAlike_of_uses H R hf hcond hino
    refine ⟨hall, fun ino ino' hino hino' hne => ?_⟩
    rw [slotAddress_eq H R (hall ino hino), slotAddress_eq H R (hall ino' hino')]
    omega

theorem inode_placement_eightZones :
    ∃ image, mkfs rootEnv 1 eightZones (blankDevice (2 ^ 20)) = some image ∧
      PlacedAlike eightZones (aufsFillSb image.superBlock) 1 := by
  have H := accepted_of_parseArgs eightZones_parsed
  obtain ⟨image, himage, -, -⟩ := exists_image H rootEnv (blankDevice (2 ^ 20))
  exact ⟨image, himage,
    ((inode_placement_iff eightZones_parsed himage rfl).mpr (by decide)).1 1 (.inl rfl)⟩

/-- `mkfs.aufs -s 512 -b 64 /dev/nvme0n1`: eight inodes to a block. -/
def smallZones : Configuration where
  device := "/dev/nvme0n1"
  sourceDir := ""
  numZones := 64
  zoneSize := 512
  numInodeEntryBlocks := 8
  numInodeMapBlocks := 1
  numZoneMapBlocks := 1
  numBlockAlignment := 1024

/-- mkfs puts inode 8 at the start of block 4; the kernel looks behind the end of block 3. -/
theorem smallZones_placed_apart :
    parseArgs (fun _ => 2 ^ 20) ["-s", "512", "-b", "64", "/dev/nvme0n1"] = .ok smallZones ∧
    ∃ image, mkfs rootEnv 1 smallZones (blankDevice (2 ^ 20)) = some image ∧
      image.UsesInode smallZones 8 ∧
      Inode.fillInodeBlock smallZones 8 = 4 ∧ Inode.fillInodeOffset smallZones 8 = 0 ∧
      aufsInodeBlock (aufsFillSb image.superBlock).sbi 8 = 3 ∧
      aufsInodeOffset (aufsFillSb image.superBlock).sbi 8 = 512 ∧
      (aufsFillSb image.superBlock).sBlocksize = 512 := by
  have hargs : parseArgs (fun _ => 2 ^ 20) ["-s", "512", "-b", "64", "/dev/nvme0n1"] =
      .ok smallZones := rfl
  have H := accepted_of_parseArgs hargs
  obtain ⟨image, himage, hf, R⟩ := exists_image H rootEnv (blankDevice (2 ^ 20))
  refine ⟨hargs, image, himage, .inr ⟨by decide, ?_⟩, by decide, by decide, ?_, ?_, R.blocksize⟩
  · exact (hf.inodeMap 8 (by decide)).mpr (by decide)
  · simp only [aufsInodeBlock, R.inodesInBlock, R.inodeMapBlocks, R.zoneMapBlocks]
  · simp only [aufsInodeOffset, R.inodesInBlock]

end Aufs
