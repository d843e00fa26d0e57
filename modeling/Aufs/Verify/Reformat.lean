import Aufs.Lib.Patch
import Aufs.Verify.Main

/-! Formatting stores what it stores whatever the device holds, and leaves the other bytes alone
(`format_patches`). So a device that was formatted before is formatted like a fresh one. -/

namespace Aufs
open Bytes Word

/-- The bytes of a device that mkfs stores: the fields of the super block, the two maps, the slot
of the root inode, and the entries of the root directory. -/
def Configuration.formatBytes (config : Configuration) : Set Nat := {a |
  a / config.blockSize = 0 ∧ a % config.blockSize < 28 ∨
  a / config.blockSize = 1 ∨
  a / config.blockSize = 2 ∨
  a / config.blockSize = 3 ∧ 64 ≤ a % config.blockSize ∧ a % config.blockSize < 128 ∨
  a / config.blockSize = config.blocksPerZone + 1024 ∧
    a % config.blockSize ∈ spanBytes [(0, 4), (4, 2), (64, 4), (68, 3), (128, 4), (132, 11)]}

section
variable {config : Configuration}

/-! ## The blocks -/

theorem patches_superBlock (config : Configuration) :
    Patches {k | k < 28} fun m => SuperBlock.setRootInode (SuperBlock.fillSuper config m) 1 := by
  have hspans : {k | k < 28} = spanBytes [(0, 4), (4, 4), (8, 4), (12, 4), (16, 4), (20, 4),
      (24, 4), (8, 4)] := by
    ext k
    simp [mem_spanBytes]
    omega
  rw [hspans]
  exact patches_putFields .big [⟨dsbMagic, 4, AUFS_MAGIC⟩, ⟨dsbBlockSize, 4, config.zoneSize⟩,
    ⟨dsbRootInode, 4, 2 ^ 32 - 1⟩, ⟨dsbInodeBlocks, 4, config.numInodeEntryBlocks⟩,
    ⟨dsbInodeMapBlocks, 4, config.numInodeMapBlocks⟩,
    ⟨dsbZoneMapBlocks, 4, config.numInodeMapBlocks⟩,
    ⟨dsbAlignmentNumBlocks, 4, config.numBlockAlignment⟩, ⟨dsbRootInode, 4, 1⟩]

theorem patches_rootInodeSlot (env : MkfsEnv) (block numBlocks : Nat) :
    Patches {k | 64 ≤ k ∧ k < 128} (rootInodeSlot env · 64 block numBlocks) := by
  have hspans : {k | 64 ≤ k ∧ k < 128} = spanBytes [(120, 8), (64, 4), (68, 4), (72, 4), (76, 4),
      (80, 4), (84, 4), (88, 4), (92, 4), (96, 4), (100, 4), (104, 4), (112, 4), (108, 4), (116, 4),
      (120, 8)] := by
    ext k
    simp [mem_spanBytes]
    omega
  rw [hspans]
  exact patches_putFields .big [⟨64 + diCtime, 8, env.time⟩, ⟨64 + diZonePtr 0, 4, block⟩,
    ⟨64 + diZonePtr 1, 4, 0⟩, ⟨64 + diZonePtr 2, 4, 0⟩, ⟨64 + diZonePtr 3, 4, 0⟩,
    ⟨64 + diZonePtr 4, 4, 0⟩, ⟨64 + diZonePtr 5, 4, 0⟩, ⟨64 + diZonePtr 6, 4, 0⟩,
    ⟨64 + diZonePtr 7, 4, 0⟩, ⟨64 + diZonePtr 8, 4, 0⟩, ⟨64 + diBlocks, 4, numBlocks⟩,
    ⟨64 + diSize, 4, 2 * AUFS_DIR_SIZE⟩, ⟨64 + diUid, 4, env.uid⟩, ⟨64 + diGid, 4, env.gid⟩,
    ⟨64 + diMode, 4, S_IFDIR + 0o755⟩, ⟨64 + diCtime, 8, env.time⟩]

theorem patches_mkfsDirEntry (i ino : Nat) (name : String) :
    Patches (spanBytes [(i * AUFS_DIR_SIZE + ddeInode, 4),
      (i * AUFS_DIR_SIZE + ddeName, (ascii name ++ [0]).length)]) (mkfsDirEntry · i ino name) :=
  patches_append (patches_putFields .big [⟨i * AUFS_DIR_SIZE + ddeInode, 4, ino⟩])
    (patches_poke _ _)

theorem patches_rootDirContent :
    Patches (spanBytes [(0, 4), (4, 2), (64, 4), (68, 3), (128, 4), (132, 11)]) rootDirContent :=
  patches_append (patches_append (patches_mkfsDirEntry 0 1 ".") (patches_mkfsDirEntry 1 1 ".."))
    (patches_mkfsDirEntry 2 2 ".badblocks")

/-! ## The device -/

/-- The bytes of a device of `size` bytes that held `m`, after a run of the formatter. -/
def formatMem (env : MkfsEnv) (config : Configuration) (fuel size : Nat) (m : Mem) : Mem :=
  match Formatter.run env config fuel { size := size, bytes := m } with
  | some dev => dev.bytes
  | none => m

theorem formatMem_eq (H : config.Accepted)
    (h : mkfs env fuel config { size := size, bytes := m } = some image) :
    formatMem env config fuel size m =
      (image.device config { size := size, bytes := m }).bytes := by
  rw [formatMem, Formatter.run_eq H h]

theorem device_at (H : config.Accepted) (image : Image) (dev : Device) (ha : a < dev.size) :
    (image.device config dev).bytes a =
      if a / config.blockSize = config.blocksPerZone + 1024 then
        image.rootContent (a % config.blockSize)
      else if a / config.blockSize = 3 then image.inodeBlock (a % config.blockSize)
      else if a / config.blockSize = 2 then image.inodeMap (a % config.blockSize)
      else if a / config.blockSize = 1 then image.zoneMap (a % config.blockSize)
      else if a / config.blockSize = 0 then image.superBlock (a % config.blockSize)
      else dev.bytes a := by
  have hbs := H.blockSize_cases
  have hsum : a / config.blockSize * config.blockSize + a % config.blockSize = a :=
    Nat.div_add_mod' ..
  have h := device_bytes H image dev (Nat.mod_lt a (show 0 < config.blockSize by omega))
    (show a / config.blockSize * config.blockSize + a % config.blockSize < dev.size by rwa [hsum])
  rwa [hsum] at h

theorem device_past (image : Image) (dev : Device) (ha : dev.size ≤ a) :
    (image.device config dev).bytes a = dev.bytes a := by
  have hlt : ¬a < dev.size := Nat.not_lt.mpr ha
  simp only [Image.device, writeBlock, hlt, and_false, if_false]

theorem readBlock_at (H : config.Accepted) (env : MkfsEnv) (dev : Device) (ha : a < dev.size) :
    readBlock env config dev (a / config.blockSize) (a % config.blockSize) = dev.bytes a := by
  have hbs := H.blockSize_cases
  have hsum : a / config.blockSize * config.blockSize + a % config.blockSize = a :=
    Nat.div_add_mod' ..
  rw [readBlock, if_pos (Nat.mod_lt a (by omega)), hsum, if_pos ha]

theorem eq_of_clear_iff {x y : Bool} {p : Prop} (hx : x = false ↔ p) (hy : y = false ↔ p) :
    x = y := by
  cases x <;> cases y <;> simp_all

/-- The maps do not depend on what was there before. -/
theorem maps_eq {image image' : Image} {env env' : MkfsEnv} (hf : image.Formatted config env)
    (hf' : image'.Formatted config env') (hk : k < config.blockSize) :
    image.zoneMap k = image'.zoneMap k ∧ image.inodeMap k = image'.inodeMap k :=
  ⟨byte_eq_of_bits fun i hi =>
      eq_of_clear_iff (hf.zoneMap (8 * k + i) (by omega)) (hf'.zoneMap (8 * k + i) (by omega)),
    byte_eq_of_bits fun i hi =>
      eq_of_clear_iff (hf.inodeMap (8 * k + i) (by omega)) (hf'.inodeMap (8 * k + i) (by omega))⟩

theorem fillInodeOffset_one (H : config.Accepted) : Inode.fillInodeOffset config 1 = 64 := by
  have hin := H.inodesInBlock_cases
  have hmod : 1 % config.inodesInBlock = 1 := Nat.mod_eq_of_lt (by omega)
  change 1 % config.inodesInBlock * 64 = 64
  rw [hmod]

/-- The formatter stores its own values in `formatBytes`, as far as the device goes. -/
theorem format_patches (H : config.Accepted) (env : MkfsEnv) (fuel size : Nat) :
    Patches {a | a ∈ config.formatBytes ∧ a < size} (formatMem env config (fuel + 1) size) := by
  have hbs := H.blockSize_cases
  have hroot := H.rootBlock_eq
  have htable := fillInodeBlock_one H
  have hoff := fillInodeOffset_one H
  constructor
  · intro m a ha
    obtain ⟨image, himage, -⟩ := mkfs_spec H env fuel { size := size, bytes := m }
    obtain ⟨hs, hi, hr⟩ := mkfs_blocks himage
    rw [formatMem_eq H himage]
    by_cases hlt : a < size
    · have hout : a ∉ config.formatBytes := fun h => ha ⟨h, hlt⟩
      have hread : readBlock env config { size := size, bytes := m } (a / config.blockSize)
        (a % config.blockSize) = m a := readBlock_at H env _ hlt
      rw [device_at H image _ hlt]
      simp only [Configuration.formatBytes, Set.mem_ofPred_eq, not_or, not_and] at hout
      obtain ⟨h₀, h₁, h₂, h₃, h₄⟩ := hout
      rw [hroot] at hr
      rw [htable, hoff] at hi
      split
      · next hno =>
        rw [← hno] at hr
        rw [hr, ← hread]
        exact patches_rootDirContent.frame _ _ (h₄ hno)
      split
      · next hno =>
        rw [hi, ← hread, hno]
        exact (patches_rootInodeSlot env _ _).frame _ _ fun hk => h₃ hno hk.1 hk.2
      -- blocks 1 and 2 are stored whole
      split
      · next hno =>
        rw [hs, ← hread, hno]
        exact (patches_superBlock config).frame _ _ (h₀ hno)
      · rfl
    · exact device_past image _ (Nat.le_of_not_lt hlt)
  · intro m m' a ⟨ha, hlt⟩
    obtain ⟨image, himage, hf⟩ := mkfs_spec H env fuel { size := size, bytes := m }
    obtain ⟨image', himage', hf'⟩ := mkfs_spec H env fuel { size := size, bytes := m' }
    obtain ⟨hs, hi, hr⟩ := mkfs_blocks himage
    obtain ⟨hs', hi', hr'⟩ := mkfs_blocks himage'
    obtain ⟨hzone, hinode⟩ := maps_eq hf hf' (Nat.mod_lt a (show 0 < config.blockSize by omega))
    rw [formatMem_eq H himage, formatMem_eq H himage', device_at H image _ hlt,
      device_at H image' _ hlt]
    by_cases hblock : a / config.blockSize = config.blocksPerZone + 1024
    · rw [if_pos hblock, if_pos hblock, hr, hr']
      rcases ha with ⟨hno, -⟩ | hno | hno | ⟨hno, -⟩ | ⟨-, hin⟩
      · omega
      · omega
      · omega
      · omega
      · exact patches_rootDirContent.fixed _ _ _ hin
    · rw [htable, hoff] at hi hi'
      simp only [if_neg hblock]
      rcases ha with ⟨hno, hin⟩ | hno | hno | ⟨hno, hin⟩ | ⟨hno, -⟩
      · simp only [hno, Nat.reduceEqDiff, if_true, if_false, hs, hs']
        exact (patches_superBlock config).fixed _ _ _ hin
      · simp only [hno, Nat.reduceEqDiff, if_true, if_false, hzone]
      · simp only [hno, Nat.reduceEqDiff, if_true, if_false, hinode]
      · simp only [hno, if_true, hi, hi']
        exact (patches_rootInodeSlot env _ _).fixed _ _ _ hin
      · exact absurd hno hblock

theorem run_formatMem (H : config.Accepted) (env : MkfsEnv) (fuel : Nat) (dev : Device) :
    Formatter.run env config (fuel + 1) dev =
      some { dev with bytes := formatMem env config (fuel + 1) dev.size dev.bytes } := by
  obtain ⟨image, himage, -⟩ := mkfs_spec H env fuel dev
  rw [Formatter.run_eq H himage, formatMem_eq H himage]
  rfl

/-- A run with the arguments of `config`. -/
theorem mkfsMain_eq (hargs : parseArgs disks.files.deviceSize argv = .ok config) (env : MkfsEnv)
    (fuel : Nat) (hdev : disks config.device = some dev) :
    mkfsMain env (fuel + 1) disks argv = some (0, Function.update disks config.device
      (some { dev with bytes := formatMem env config (fuel + 1) dev.size dev.bytes })) := by
  unfold mkfsMain
  simp only [hargs, hdev, Option.getD_some, run_formatMem (accepted_of_parseArgs hargs),
    Option.bind_eq_bind, Option.bind_some, Option.map_some, Option.pure_def]

end

/-- A run of mkfs changes no byte of its device outside of `formatBytes`, and another run on top of
it, at another time and by another user, leaves what it would have left alone. -/
theorem mkfs_main_again {config : Configuration} {env : MkfsEnv} {fuel : Nat} {disks disks' : Disks}
    {argv : List String} {dev : Device} (hargs : parseArgs disks.files.deviceSize argv = .ok config)
    (hdev : disks config.device = some dev)
    (hmain : mkfsMain env (fuel + 1) disks argv = some (0, disks')) :
    (∃ dev', disks' config.device = some dev' ∧ dev'.size = dev.size ∧
      ∀ a ∉ config.formatBytes, dev'.bytes a = dev.bytes a) ∧
    ∀ env' fuel', mkfsMain env' (fuel' + 1) disks' argv = mkfsMain env' (fuel' + 1) disks argv := by
  have H := accepted_of_parseArgs hargs
  rw [mkfsMain_eq hargs env fuel hdev] at hmain
  cases hmain
  refine ⟨⟨_, Function.update_self .., rfl, fun a ha => ?_⟩, fun env' fuel' => ?_⟩
  · exact (format_patches H env fuel dev.size).frame _ _ fun h => ha h.1
  · -- the files have the sizes they had, so the arguments mean the same
    have hfiles : Disks.files (Function.update disks config.device (some
        { dev with bytes := formatMem env config (fuel + 1) dev.size dev.bytes })) =
        disks.files := by
      funext name
      simp only [Disks.files]
      by_cases hname : name = config.device
      · rw [hname, Function.update_self, hdev]
        rfl
      · rw [Function.update_of_ne hname]
    rw [mkfsMain_eq hargs env' fuel' hdev,
      mkfsMain_eq (by rw [hfiles]; exact hargs) env' fuel' (Function.update_self ..),
      Function.update_idem]
    have habsorb : formatMem env' config (fuel' + 1) dev.size
        (formatMem env config (fuel + 1) dev.size dev.bytes) =
          formatMem env' config (fuel' + 1) dev.size dev.bytes :=
      (format_patches H env' fuel' dev.size).absorb (format_patches H env fuel dev.size)
        fun _ h => h
    rw [habsorb]

/-- Formatting the same device again, an hour later. -/
theorem mkfs_main_again_eightZones :
    ∃ disks disks' : Disks, disks "/dev/nvme0n1" = some (blankDevice (2 ^ 20)) ∧
      mkfsMain rootEnv 1 disks ["-b", "8", "/dev/nvme0n1"] = some (0, disks') ∧
      mkfsMain { rootEnv with time := 3600 } 1 disks' ["-b", "8", "/dev/nvme0n1"] =
        mkfsMain { rootEnv with time := 3600 } 1 disks ["-b", "8", "/dev/nvme0n1"] := by
  let disks : Disks := fun name =>
    if name = "/dev/nvme0n1" then some (blankDevice (2 ^ 20)) else none
  have hargs : parseArgs disks.files.deviceSize ["-b", "8", "/dev/nvme0n1"] = .ok eightZones := by
    decide
  have hdev : disks eightZones.device = some (blankDevice (2 ^ 20)) := rfl
  have hmain := mkfsMain_eq hargs rootEnv 0 hdev
  exact ⟨disks, _, hdev, hmain, (mkfs_main_again hargs hdev hmain).2 _ 0⟩

end Aufs
