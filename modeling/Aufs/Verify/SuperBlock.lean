import Aufs.Kern.Inode
import Aufs.Mkfs.FormatLemmas

/-! The super block and the root inode as the kernel reads them off an image: `Sb.Reads` lists the
fields of the one and `IsRoot` those of the other, and the rest of the development uses nothing else
of the encoding. `superBlock_decodes_iff` says which super blocks survive the way from mkfs to the
kernel when the two maps may have any number of blocks. -/

namespace Aufs
open Bytes Word

/-- `sb` is what mounting an image of `config` reads. -/
structure Sb.Reads (sb : Sb) (config : Configuration) : Prop where
  magic : sb.sbi.asbMagic = AUFS_MAGIC
  inodeBlocks : sb.sbi.asbInodeBlocks = config.numInodeEntryBlocks
  zoneSize : sb.sbi.asbZoneSize = config.zoneSize
  rootInode : sb.sbi.asbRootInode = 1
  inodesInBlock : sb.sbi.asbInodesInBlock = 64
  inodeMapBlocks : sb.sbi.asbInodeMapBlocks = 1
  zoneMapBlocks : sb.sbi.asbZoneMapBlocks = 1
  blocksPerZone : sb.sbi.asbBlocksPerZone = config.blocksPerZone
  alignment : sb.sbi.asbAlignmentNumBlocks = 1024
  blocksize : sb.sBlocksize = config.blockSize

/-! ## The fields of the super block -/

namespace SuperBlock

/-- What the kernel decodes of the super block that mkfs writes, field by field. The number of
inode-map blocks stands in two fields. -/
theorem aufsSuperBlockFill_fillSuper (asb : AufsSuperBlock) (config : Configuration) (old : Mem)
    (root : Nat) :
    aufsSuperBlockFill asb (setRootInode (fillSuper config old) root) =
      { asbMagic := AUFS_MAGIC
        asbInodeBlocks := config.numInodeEntryBlocks % 2 ^ 32
        asbZoneSize := config.zoneSize % 2 ^ 32
        asbRootInode := root % 2 ^ 32
        asbInodesInBlock := (aufsSuperBlockFill asb old).asbInodesInBlock
        asbInodeMapBlocks := config.numInodeMapBlocks % 2 ^ 32
        asbZoneMapBlocks := config.numInodeMapBlocks % 2 ^ 32
        asbBlocksPerZone :=
          if config.zoneSize % 2 ^ 32 > 4096 then config.zoneSize % 2 ^ 32 / 4096 else 1
        asbAlignmentNumBlocks := config.numBlockAlignment % 2 ^ 32 } := by
  simp only [aufsSuperBlockFill, setRootInode, fillSuper, dsbMagic, dsbBlockSize, dsbRootInode,
    dsbInodeBlocks, dsbInodeMapBlocks, dsbZoneMapBlocks, dsbAlignmentNumBlocks]
  simp only [be32_putBe32_same, be32_putBe32_ne, Nat.le_refl, Nat.reduceAdd, Nat.reduceLeDiff,
    true_or, or_true]
  rfl

end SuperBlock

/-- The super block of an image decodes to its configuration. `asb_inodes_in_block` does not
depend on the zone size. -/
theorem aufsFillSb_reads {config : Configuration} {image : Image} (H : config.Accepted)
    (hf : image.Formatted config env) : (aufsFillSb image.superBlock).Reads config := by
  obtain ⟨old, hsb⟩ := hf.superBlock
  have hib := H.inodeTable_bounds
  have hzs : config.zoneSize % 2 ^ 32 = config.zoneSize := Nat.mod_eq_of_lt H.zoneSize_lt
  have hinodes : config.numInodeEntryBlocks % 2 ^ 32 = config.numInodeEntryBlocks :=
    Nat.mod_eq_of_lt (by omega)
  have hone : 1 % 2 ^ 32 = 1 := by decide
  have hal : 1024 % 2 ^ 32 = 1024 := by decide
  unfold aufsFillSb
  simp only [hsb, SuperBlock.aufsSuperBlockFill_fillSuper, hzs, hinodes, H.inodeMapBlocks,
    H.alignment, hone, hal]
  exact ⟨rfl, rfl, rfl, rfl, rfl, rfl, rfl, H.blocksPerZone_eq.symm, rfl, rfl⟩

/-! ## The round trip -/

/-- `asb` holds the geometry of `config` and the root inode number `root`. -/
structure AufsSuperBlock.Decodes (asb : AufsSuperBlock) (config : Configuration) (root : Nat) :
    Prop where
  zoneSize : asb.asbZoneSize = config.zoneSize
  inodeBlocks : asb.asbInodeBlocks = config.numInodeEntryBlocks
  inodeMapBlocks : asb.asbInodeMapBlocks = config.numInodeMapBlocks
  zoneMapBlocks : asb.asbZoneMapBlocks = config.numZoneMapBlocks
  alignment : asb.asbAlignmentNumBlocks = config.numBlockAlignment
  rootInode : asb.asbRootInode = root
  blocksPerZone : asb.asbBlocksPerZone = config.zoneSize / config.blockSize

/-- The fields of a configuration that its constructor sets from its arguments, and the size of
the inode table, which fits a word whatever they are. -/
theorem Configuration.make_eq_ok {dev dir : String}
    {nZones zone numBlockInodeMap numBlockZoneMap numBlockAlignment : Nat} {config : Configuration}
    (h : make dev dir nZones zone numBlockInodeMap numBlockZoneMap numBlockAlignment =
      .ok config) :
    config.zoneSize = zone ∧ config.numInodeMapBlocks = numBlockInodeMap ∧
      config.numZoneMapBlocks = numBlockZoneMap ∧ config.numBlockAlignment = numBlockAlignment ∧
      config.numInodeEntryBlocks < 2 ^ 32 := by
  simp only [make, bind_eq_ok] at h
  obtain ⟨inodeBlocks, hcount, hmk⟩ := h
  cases hmk
  refine ⟨rfl, rfl, rfl, rfl, ?_⟩
  simp only [countInodeEntryBlocks] at hcount
  split at hcount
  · cases hcount
  · cases hcount
    exact Nat.lt_of_le_of_lt (Nat.div_le_self _ _) u32_lt

/-- `FillSuper` writes the number of inode-map blocks where the number of zone-map blocks
belongs: the super block of a configuration decodes to it exactly when the two are equal. -/
theorem superBlock_decodes_iff {device dir : String}
    {nZones zoneSize numBlockInodeMap numBlockZoneMap numBlockAlignment root : Nat}
    {config : Configuration} (asb : AufsSuperBlock) (old : Mem)
    (hmake : Configuration.make device dir nZones zoneSize numBlockInodeMap numBlockZoneMap
      numBlockAlignment = .ok config)
    (hzone : 64 ≤ zoneSize) (hzone' : zoneSize < 2 ^ 32) (him : numBlockInodeMap < 2 ^ 32)
    (hal : numBlockAlignment < 2 ^ 32) (hroot : root < 2 ^ 32) :
    (aufsSuperBlockFill asb (SuperBlock.setRootInode (SuperBlock.fillSuper config old)
      root)).Decodes config root ↔ numBlockInodeMap = numBlockZoneMap := by
  obtain ⟨hzs, hin, hzn, haln, hib⟩ := Configuration.make_eq_ok hmake
  rw [SuperBlock.aufsSuperBlockFill_fillSuper, hzs, hin, haln, Nat.mod_eq_of_lt hzone',
    Nat.mod_eq_of_lt him, Nat.mod_eq_of_lt hal, Nat.mod_eq_of_lt hroot, Nat.mod_eq_of_lt hib]
  constructor
  · intro h
    exact h.zoneMapBlocks.trans hzn
  · intro heq
    refine ⟨hzs.symm, rfl, hin.symm, heq.trans hzn.symm, haln.symm, rfl, ?_⟩
    simp only [Configuration.blockSize, blockSizeOf, hzs]
    split
    · rfl
    · exact (Nat.div_self (by omega)).symm

/-- A configuration with two blocks of zone map and one of inode map. -/
def twoZoneMaps : Configuration where
  device := "/dev/nvme0n1"
  sourceDir := ""
  numZones := 40000
  zoneSize := 4096
  numInodeEntryBlocks := 512
  numInodeMapBlocks := 1
  numZoneMapBlocks := 2
  numBlockAlignment := 1024

theorem superBlock_decodes_twoInodeMaps :
    ∃ config, Configuration.make "/dev/nvme0n1" "" 40000 4096 2 2 1024 = .ok config ∧
      (aufsSuperBlockFill .zero (SuperBlock.setRootInode
        (SuperBlock.fillSuper config fun _ => 0) 1)).Decodes config 1 := by
  have hmake : Configuration.make "/dev/nvme0n1" "" 40000 4096 2 2 1024 =
      .ok { twoZoneMaps with numInodeEntryBlocks := 625, numInodeMapBlocks := 2 } := by decide
  exact ⟨_, hmake, (superBlock_decodes_iff .zero _ hmake (by decide) (by decide) (by decide)
    (by decide) (by decide)).mpr rfl⟩

theorem superBlock_zoneMapBlocks_lost :
    Configuration.make "/dev/nvme0n1" "" 40000 4096 1 2 1024 = .ok twoZoneMaps ∧
      ¬(aufsSuperBlockFill .zero (SuperBlock.setRootInode
        (SuperBlock.fillSuper twoZoneMaps fun _ => 0) 1)).Decodes twoZoneMaps 1 := by
  refine ⟨by decide, ?_⟩
  intro h
  have hlost := h.zoneMapBlocks
  rw [SuperBlock.aufsSuperBlockFill_fillSuper] at hlost
  revert hlost
  decide

/-! ## The data region -/

namespace Sb.Reads

variable {config : Configuration} {sb : Sb}

/-- The kernel's data region starts behind the metadata and one zone, at a multiple of 1024. -/
theorem dataBase_eq (R : sb.Reads config) (H : config.Accepted) :
    sb.sbi.dataBase = (config.metadataBlocks + config.blocksPerZone + 1023) / 1024 * 1024 := by
  simp only [AufsSuperBlock.dataBase, integerRoundUpDivision, R.inodeMapBlocks, R.zoneMapBlocks,
    R.inodeBlocks, R.blocksPerZone, R.alignment, H.metadataBlocks_eq, Nat.one_mul]
  congr 1

theorem dataBase_ge (R : sb.Reads config) (H : config.Accepted) :
    1024 ≤ sb.sbi.dataBase ∧ config.metadataBlocks + config.blocksPerZone ≤ sb.sbi.dataBase := by
  have := H.blocksPerZone_pos
  have := H.metadataBlocks_eq
  rw [R.dataBase_eq H]
  omega

theorem dataBase_lt (R : sb.Reads config) (H : config.Accepted) : sb.sbi.dataBase < 2 ^ 20 := by
  have := H.blocksPerZone_le
  have := H.metadataBlocks_le
  rw [R.dataBase_eq H]
  omega

/-- The exact value behind `aufs_new_zone`'s result does not wrap in `unsigned long`. -/
theorem zoneBlock_eq (R : sb.Reads config) (H : config.Accepted) (hj : j < 2 ^ 31) :
    sb.sbi.zoneBlock j = i32 ((j * config.blocksPerZone + sb.sbi.dataBase : Nat) : Int) := by
  have hbase := R.dataBase_lt H
  have hmul : j * config.blocksPerZone ≤ 2 ^ 31 * 2 ^ 19 :=
    Nat.mul_le_mul (Nat.le_of_lt hj) H.blocksPerZone_le
  rw [AufsSuperBlock.zoneBlock, R.blocksPerZone, u64_of_lt (by omega)]

theorem zoneBlock_of_lt (R : sb.Reads config) (H : config.Accepted) (hj : j < 2 ^ 31)
    (h : j * config.blocksPerZone + sb.sbi.dataBase < 2 ^ 31) :
    sb.sbi.zoneBlock j = (j * config.blocksPerZone + sb.sbi.dataBase : Nat) := by
  rw [R.zoneBlock_eq H hj, i32_of_lt h]

theorem bits_lt (R : sb.Reads config) (H : config.Accepted) : 8 * sb.sBlocksize < 2 ^ 31 := by
  have := H.blockSize_cases
  rw [R.blocksize]
  omega

end Sb.Reads

/-! ## The root inode -/

/-- The slot of the root inode in its block. -/
def Image.rootSlot (image : Image) (sb : Sb) : Mem := fun k =>
  image.inodeBlock (aufsInodeOffset sb.sbi sb.sbi.asbRootInode + k)

/-- The root inode as mkfs left it: a directory of two entries in its first zone. -/
structure IsRoot (config : Configuration) (inode : AufsInode) : Prop where
  ino : inode.iIno = 1
  size : inode.iSize = 2 * AUFS_DIR_SIZE
  zone : ∀ i, inode.aiZonePtr i = if (i : Nat) = 0 then mkfsZoneBlock config 1 else 0
  mode : inode.iMode = S_IFDIR + 0o755
  clean : inode.iDirty = false

theorem be32_shift (m : Mem) (a off : Nat) : be32 (fun k => m (a + k)) off = be32 m (a + off) := by
  rw [be32, be32, getWord, getWord, peek_congr]
  intro k _
  rw [Nat.add_assoc]

/-- The words of the root inode in the order in which mkfs stores them, behind the creation time
that it stores twice. -/
def rootInodeFields (env : MkfsEnv) (off block numBlocks : Nat) : List Field :=
  ⟨off + diZonePtr 0, 4, block⟩ ::
    [1, 2, 3, 4, 5, 6, 7, 8].map (fun i => ⟨off + diZonePtr i, 4, 0⟩) ++
    [⟨off + diBlocks, 4, numBlocks⟩, ⟨off + diSize, 4, 2 * AUFS_DIR_SIZE⟩,
      ⟨off + diUid, 4, env.uid⟩, ⟨off + diGid, 4, env.gid⟩, ⟨off + diMode, 4, S_IFDIR + 0o755⟩,
      ⟨off + diCtime, 8, env.time⟩]

theorem rootInodeSlot_eq (env : MkfsEnv) (raw : Mem) (off block numBlocks : Nat) :
    rootInodeSlot env raw off block numBlocks =
      putFields .big (Inode.setCreateTime raw off env.time)
        (rootInodeFields env off block numBlocks) := rfl

/-- In its slot behind the unused inode 0 each word of the root inode reads back. -/
theorem getWord_rootInode {env : MkfsEnv} {f : Field}
    (hf : f ∈ rootInodeFields env 64 block numBlocks) :
    getWord .big (rootInodeSlot env raw 64 block numBlocks) f.off f.width =
      f.value % 256 ^ f.width := by
  have hspans : (rootInodeFields env 64 block numBlocks).map Field.span =
      [(64, 4), (68, 4), (72, 4), (76, 4), (80, 4), (84, 4), (88, 4), (92, 4), (96, 4), (100, 4),
        (104, 4), (112, 4), (108, 4), (116, 4), (120, 8)] := rfl
  rw [rootInodeSlot_eq]
  refine getWord_putFields ?_ hf
  rw [hspans]
  decide

theorem aufsInodeGet_root {config : Configuration} {sb : Sb} {image : Image} {env : MkfsEnv}
    (H : config.Accepted) (R : sb.Reads config) (hf : image.Formatted config env)
    (leftover : Fin ZONE_PTR_IN_INODE_NUM → Nat) :
    ∃ root, aufsInodeGet leftover sb.sbi.asbRootInode (image.rootSlot sb) = .ok root ∧
      IsRoot config root := by
  obtain ⟨old, hblock⟩ := hf.inodeBlock
  have hoff : Inode.fillInodeOffset config 1 = 64 := by
    have hin := H.inodesInBlock_cases
    change 1 % config.inodesInBlock * sizeofInode = 64
    rw [Nat.mod_eq_of_lt (by omega)]
    rfl
  have hkoff : aufsInodeOffset sb.sbi sb.sbi.asbRootInode = 64 := by
    rw [aufsInodeOffset, R.rootInode, R.inodesInBlock]
  have hroot : mkfsZoneBlock config 1 < 2 ^ 32 := u32_lt
  rw [hoff] at hblock
  have hword : ∀ off, be32 (image.rootSlot sb) off =
      be32 (rootInodeSlot env old 64 (mkfsZoneBlock config 1) 1) (64 + off) := by
    intro off
    rw [← hblock, ← be32_shift, ← hkoff]
    rfl
  have hmode : be32 (image.rootSlot sb) diMode % 2 ^ 16 = S_IFDIR + 0o755 := by
    rw [hword, be32, getWord_rootInode (f := ⟨64 + diMode, 4, S_IFDIR + 0o755⟩)
      (List.mem_append_right _ (.tail _ (.tail _ (.tail _ (.tail _ (.head _))))))]
    rfl
  have hsize : be32 (image.rootSlot sb) diSize = 2 * AUFS_DIR_SIZE := by
    rw [hword, be32, getWord_rootInode (f := ⟨64 + diSize, 4, 2 * AUFS_DIR_SIZE⟩)
      (List.mem_append_right _ (.tail _ (.head _)))]
    rfl
  have hzone : ∀ i : Fin ZONE_PTR_IN_INODE_NUM, be32 (image.rootSlot sb) (diZonePtr i) =
      if (i : Nat) = 0 then mkfsZoneBlock config 1 else 0 := by
    rintro ⟨i, hi⟩
    change i < 9 at hi
    rw [hword, be32]
    by_cases h0 : i = 0
    · subst h0
      rw [if_pos rfl, getWord_rootInode (f := ⟨64 + diZonePtr 0, 4, mkfsZoneBlock config 1⟩)
        (.head _)]
      exact Nat.mod_eq_of_lt hroot
    · have hi' : i ∈ [1, 2, 3, 4, 5, 6, 7, 8] := by
        simp only [List.mem_cons, List.mem_nil_iff]
        omega
      rw [if_neg h0, getWord_rootInode (f := ⟨64 + diZonePtr i, 4, 0⟩)
        (List.mem_append_left _ (.tail _ (List.mem_map.mpr ⟨i, hi', rfl⟩)))]
      rfl
  refine ⟨aufsInodeFill { newInode leftover with iIno := sb.sbi.asbRootInode }
    (image.rootSlot sb), ?_, R.rootInode, hsize, hzone, hmode, rfl⟩
  simp only [aufsInodeGet, aufsInodeFill, hmode]
  rfl

end Aufs
