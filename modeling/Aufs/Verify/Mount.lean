import Aufs.Kern.Mount
import Aufs.Verify.Layout

/-! What a mount does with any device, and with an image of mkfs.

* `mount_safe_iff`: `aufs_fill_sb` returns, without following a null pointer or using a map that
  has no blocks, exactly when every block of the super block and of the maps could be read into
  memory, neither map is empty and the magic number is right. With no zone map blocks it sets the
  first bit of the inode map in place of that of the zone map, and may return.
* `mounted_maps_iff`: the maps that the kernel uses are those of mkfs exactly when the device had
  the file system's block size before the mount. -/

namespace Aufs
open Bytes Word

variable {env : MountEnv} {dev : Device}

/-! ## Reading the maps -/

theorem sbBread_eq_some {call size no : Nat} {bh : Buffer}
    (h : sbBread env dev call size no = some bh) :
    dev.HasBlock size no ∧
      bh = { bBlocknr := no, bSize := size, bData := fun k => dev.bytes (no * size + k) } := by
  unfold sbBread at h
  split at h
  · next hok =>
    cases h
    exact ⟨hok.2, rfl⟩
  · cases h

/-- The super block is at the start of the device, whatever the block size. -/
theorem sbBread_zero {call size : Nat} {bh : Buffer} (h : sbBread env dev call size 0 = some bh) :
    bh.bData = dev.bytes := by
  rw [(sbBread_eq_some h).2]
  funext k
  simp

theorem readMapBlocks_isSome (n block : Nat) :
    (readMapBlocks env dev n block).isSome ↔
      ∀ k < n, (sbBread env dev (block + k) env.blockSize (block + k)).isSome := by
  induction n generalizing block with
  | zero => simp [readMapBlocks]
  | succ n ih =>
    rw [readMapBlocks]
    cases hbh : sbBread env dev block env.blockSize block with
    | none =>
      simp only [Option.bind_eq_bind, Option.bind_none, Option.isSome_none, Bool.false_eq_true,
        false_iff]
      intro hall
      have := hall 0 (by omega)
      rw [Nat.add_zero, hbh] at this
      cases this
    | some bh =>
      have hrest : (readMapBlocks env dev n (block + 1)).isSome ↔
          ∀ k < n + 1, (sbBread env dev (block + k) env.blockSize (block + k)).isSome := by
        rw [ih]
        constructor
        · intro hall k hk
          cases k with
          | zero =>
            rw [Nat.add_zero, hbh]
            rfl
          | succ k =>
            rw [show block + (k + 1) = block + 1 + k by omega]
            exact hall k (by omega)
        · intro hall k hk
          rw [show block + 1 + k = block + (k + 1) by omega]
          exact hall (k + 1) (by omega)
      rw [← hrest]
      cases readMapBlocks env dev n (block + 1) with
      | none => rfl
      | some bhs => rfl

/-- The first buffer of a map is the first of its blocks. -/
theorem readMapBlocks_cons {n block : Nat} {bh : Buffer} {bhs : List Buffer}
    (h : readMapBlocks env dev n block = some (bh :: bhs)) :
    0 < n ∧ bh.bBlocknr = block ∧ bh.bSize = env.blockSize := by
  cases n with
  | zero => cases h
  | succ n =>
    simp only [readMapBlocks, Option.bind_eq_bind, Option.bind_eq_some_iff] at h
    obtain ⟨bh', hbh, bhs', -, heq⟩ := h
    cases heq
    rw [(sbBread_eq_some hbh).2]
    exact ⟨by omega, rfl, rfl⟩

theorem readMapBlocks_length {n block : Nat} {bhs : List Buffer}
    (h : readMapBlocks env dev n block = some bhs) : bhs.length = n := by
  induction n generalizing block bhs with
  | zero =>
    cases h
    rfl
  | succ n ih =>
    simp only [readMapBlocks, Option.bind_eq_bind, Option.bind_eq_some_iff] at h
    obtain ⟨bh', -, bhs', hrest, heq⟩ := h
    cases heq
    rw [List.length_cons, ih hrest]

/-- The super block that a mount of `dev` decodes. -/
def Device.superBlock (dev : Device) : AufsSuperBlock := aufsSuperBlockFill .zero dev.bytes

theorem Buffer.setFirstBit_twice (bh : Buffer) : bh.setFirstBit.setFirstBit = bh.setFirstBit := by
  simp only [setFirstBit, minixSetBit, setBit_setBit]

/-- Setting the first bits needs an inode map block. Without a zone map block the first bit of the
inode map is set twice. -/
theorem setFirstBit_both (zmap imap : List Buffer) :
    (setFirstBit (zmap ++ imap) 0 >>= fun map => setFirstBit map zmap.length) =
      match imap with
      | [] => .error .pastMaps
      | ibh :: ibhs => .ok (zmap.modifyHead Buffer.setFirstBit ++ ibh.setFirstBit :: ibhs) := by
  cases zmap with
  | nil =>
    cases imap with
    | nil => rfl
    | cons ibh ibhs =>
      change Except.ok (ibh.setFirstBit.setFirstBit :: ibhs) = _
      rw [Buffer.setFirstBit_twice]
      rfl
  | cons zbh zbhs =>
    change setFirstBit ((zbh.setFirstBit :: zbhs) ++ imap) (zbh.setFirstBit :: zbhs).length = _
    cases imap with
    | nil => simp [setFirstBit]
    | cons ibh ibhs => simp [setFirstBit]

/-- When `aufs_super_block_read` returns a super block, with which buffers, and which uses of the
maps it makes then. -/
theorem aufsSuperBlockReadUses_eq_some {maps : SuperBlockMaps} {uses : List Nat} :
    aufsSuperBlockReadUses env dev = (.ok (some maps), uses) ↔
      (env.kzalloc 0 = true ∧ (sbBread env dev 0 env.blockSize 0).isSome ∧ env.kzalloc 1 = true ∧
      dev.superBlock.asbMagic = AUFS_MAGIC ∧
      ∃ zbhs ibh ibhs,
        readMapBlocks env dev dev.superBlock.asbZoneMapBlocks 1 = some zbhs ∧
        readMapBlocks env dev dev.superBlock.asbInodeMapBlocks
          (1 + dev.superBlock.asbZoneMapBlocks) = some (ibh :: ibhs) ∧
        maps = { asb := dev.superBlock
                 sZmap := zbhs.modifyHead Buffer.setFirstBit
                 sImap := ibh.setFirstBit :: ibhs }) ∧
      uses = [dev.superBlock.asbZoneMapBlocks, dev.superBlock.asbInodeMapBlocks] := by
  unfold aufsSuperBlockReadUses
  cases hk0 : env.kzalloc 0 with
  | false => simp
  | true =>
  cases hbh : sbBread env dev 0 env.blockSize 0 with
  | none => simp
  | some bh =>
  have hasb : aufsSuperBlockFill .zero bh.bData = dev.superBlock := by
    rw [sbBread_zero hbh]
    rfl
  simp only [hasb]
  cases hk1 : env.kzalloc 1 with
  | false => simp
  | true =>
  generalize dev.superBlock = asb
  cases hz : readMapBlocks env dev asb.asbZoneMapBlocks 1 with
  | none => simp
  | some zmap =>
  cases hi : readMapBlocks env dev asb.asbInodeMapBlocks (1 + asb.asbZoneMapBlocks) with
  | none => simp
  | some imap =>
  have hlen := readMapBlocks_length hz
  have hboth := setFirstBit_both zmap imap
  rw [hlen] at hboth
  cases hfirst : setFirstBit (zmap ++ imap) 0 with
  | error fault =>
    rw [hfirst] at hboth
    cases imap with
    | nil =>
      rw [List.append_nil] at hfirst
      simp [hfirst]
    | cons ibh ibhs => cases hboth
  | ok map =>
  rw [hfirst] at hboth
  replace hboth : setFirstBit map asb.asbZoneMapBlocks = _ := hboth
  cases imap with
  | nil =>
    rw [List.append_nil] at hfirst
    simp [hfirst, hboth]
  | cons ibh ibhs =>
  have htake : (zmap.modifyHead Buffer.setFirstBit).length = asb.asbZoneMapBlocks := by
    rw [List.length_modifyHead, hlen]
  by_cases hmagic : asb.asbMagic = AUFS_MAGIC
  · simp [hfirst, hboth, hmagic, List.take_left' htake, List.drop_left' htake, eq_comm]
  · simp [hfirst, hboth, hmagic]

theorem aufsSuperBlockRead_eq_some {maps : SuperBlockMaps} :
    aufsSuperBlockRead env dev = .ok (some maps) ↔
      env.kzalloc 0 = true ∧ (sbBread env dev 0 env.blockSize 0).isSome ∧ env.kzalloc 1 = true ∧
      dev.superBlock.asbMagic = AUFS_MAGIC ∧
      ∃ zbhs ibh ibhs,
        readMapBlocks env dev dev.superBlock.asbZoneMapBlocks 1 = some zbhs ∧
        readMapBlocks env dev dev.superBlock.asbInodeMapBlocks
          (1 + dev.superBlock.asbZoneMapBlocks) = some (ibh :: ibhs) ∧
        maps = { asb := dev.superBlock
                 sZmap := zbhs.modifyHead Buffer.setFirstBit
                 sImap := ibh.setFirstBit :: ibhs } := by
  constructor
  · intro h
    exact (aufsSuperBlockReadUses_eq_some.mp (Prod.ext h rfl)).1
  · intro h
    exact congrArg Prod.fst (aufsSuperBlockReadUses_eq_some.mpr ⟨h, rfl⟩)

/-- The uses of the maps of a mount that returns. -/
theorem mapUses_eq {maps : SuperBlockMaps} (h : aufsSuperBlockRead env dev = .ok (some maps)) :
    (aufsSuperBlockReadUses env dev).2 =
      [dev.superBlock.asbZoneMapBlocks, dev.superBlock.asbInodeMapBlocks] :=
  (aufsSuperBlockReadUses_eq_some.mp (Prod.ext h rfl)).2

/-! ## Safety -/

/-- A mount that reads a null pointer or behind the maps does not return, and no other does so. -/
theorem mount_returns_iff :
    (∃ ret, mountAufsFillSb env dev = .ok ret) ↔
      ∃ maps, aufsSuperBlockRead env dev = .ok (some maps) := by
  unfold mountAufsFillSb
  cases aufsSuperBlockRead env dev with
  | error fault => simp
  | ok read =>
    cases read with
    | none => simp
    | some maps => simp

/-- Every buffer of the two maps is there, and neither map is empty. -/
theorem maps_read_iff (env : MountEnv) (dev : Device) (zones inodes : Nat) :
    (∃ zbh zbhs ibh ibhs, readMapBlocks env dev zones 1 = some (zbh :: zbhs) ∧
      readMapBlocks env dev inodes (1 + zones) = some (ibh :: ibhs)) ↔
    (∀ n, 1 ≤ n → n ≤ zones + inodes → (sbBread env dev n env.blockSize n).isSome) ∧
      zones ≠ 0 ∧ inodes ≠ 0 := by
  constructor
  · rintro ⟨zbh, zbhs, ibh, ibhs, hz, hi⟩
    have hzpos := (readMapBlocks_cons hz).1
    have hipos := (readMapBlocks_cons hi).1
    refine ⟨?_, by omega, by omega⟩
    intro n hn1 hn
    by_cases hle : n ≤ zones
    · have hall := (readMapBlocks_isSome zones 1).mp (Option.isSome_of_eq_some hz) (n - 1)
        (by omega)
      rwa [show 1 + (n - 1) = n by omega] at hall
    · have hall := (readMapBlocks_isSome inodes (1 + zones)).mp (Option.isSome_of_eq_some hi)
        (n - 1 - zones) (by omega)
      rwa [show 1 + zones + (n - 1 - zones) = n by omega] at hall
  · rintro ⟨hall, hz0, hi0⟩
    have hz : (readMapBlocks env dev zones 1).isSome :=
      (readMapBlocks_isSome zones 1).mpr fun k hk => hall _ (by omega) (by omega)
    have hi : (readMapBlocks env dev inodes (1 + zones)).isSome :=
      (readMapBlocks_isSome inodes (1 + zones)).mpr fun k hk => hall _ (by omega) (by omega)
    obtain ⟨zmap, hzmap⟩ := Option.isSome_iff_exists.mp hz
    obtain ⟨imap, himap⟩ := Option.isSome_iff_exists.mp hi
    have hzlen := readMapBlocks_length hzmap
    have hilen := readMapBlocks_length himap
    cases zmap with
    | nil => exact absurd hzlen.symm hz0
    | cons zbh zbhs =>
      cases imap with
      | nil => exact absurd hilen.symm hi0
      | cons ibh ibhs => exact ⟨zbh, zbhs, ibh, ibhs, hzmap, himap⟩

/-- `aufs_fill_sb` keeps to its own memory, uses no entry of a map without blocks and rejects a
wrong magic number exactly when both allocations and the reads of the super block and of every map
block succeed, both maps have a block, and the magic number is right. -/
theorem mount_safe_iff (env : MountEnv) (dev : Device) :
    (∃ ret, mountAufsFillSb env dev = .ok ret ∧
      (∀ blocks ∈ (aufsSuperBlockReadUses env dev).2, blocks ≠ 0) ∧
      (be32 dev.bytes dsbMagic ≠ AUFS_MAGIC → ∃ e, ret = .error e)) ↔
    env.kzalloc 0 = true ∧ env.kzalloc 1 = true ∧
      (∀ n ≤ be32 dev.bytes dsbZoneMapBlocks + be32 dev.bytes dsbInodeMapBlocks,
        (sbBread env dev n env.blockSize n).isSome) ∧
      be32 dev.bytes dsbZoneMapBlocks ≠ 0 ∧ be32 dev.bytes dsbInodeMapBlocks ≠ 0 ∧
      be32 dev.bytes dsbMagic = AUFS_MAGIC := by
  have hz : dev.superBlock.asbZoneMapBlocks = be32 dev.bytes dsbZoneMapBlocks := rfl
  have hi : dev.superBlock.asbInodeMapBlocks = be32 dev.bytes dsbInodeMapBlocks := rfl
  have hm : dev.superBlock.asbMagic = be32 dev.bytes dsbMagic := rfl
  constructor
  · rintro ⟨ret, hret, huses, -⟩
    obtain ⟨maps, hread⟩ := mount_returns_iff.mp ⟨ret, hret⟩
    rw [mapUses_eq hread] at huses
    have hz0 := huses _ List.mem_cons_self
    obtain ⟨hk0, hbh, hk1, hmagic, zbhs, ibh, ibhs, hzmap, himap, -⟩ :=
      aufsSuperBlockRead_eq_some.mp hread
    obtain ⟨zbh, zbhs, rfl⟩ : ∃ zbh zbhs', zbhs = zbh :: zbhs' := by
      cases zbhs with
      | nil => exact absurd (readMapBlocks_length hzmap).symm hz0
      | cons zbh zbhs => exact ⟨zbh, zbhs, rfl⟩
    obtain ⟨hall, -, hi0⟩ := (maps_read_iff env dev _ _).mp ⟨zbh, zbhs, ibh, ibhs, hzmap, himap⟩
    refine ⟨hk0, hk1, ?_, hz0, hi0, hmagic⟩
    intro n hn
    cases n with
    | zero => exact hbh
    | succ n => exact hall (n + 1) (by omega) hn
  · rintro ⟨hk0, hk1, hall, hz0, hi0, hmagic⟩
    obtain ⟨zbh, zbhs, ibh, ibhs, hzmap, himap⟩ :=
      (maps_read_iff env dev _ _).mpr ⟨fun n _ hn => hall n hn, hz0, hi0⟩
    have hread : aufsSuperBlockRead env dev = .ok (some _) := aufsSuperBlockRead_eq_some.mpr
      ⟨hk0, hall 0 (by omega), hk1, hmagic, _, ibh, ibhs, hzmap, himap, rfl⟩
    obtain ⟨ret, hret⟩ := mount_returns_iff.mpr ⟨_, hread⟩
    refine ⟨ret, hret, ?_, fun h => absurd hmagic h⟩
    rw [mapUses_eq hread]
    intro blocks hmem
    rcases List.mem_cons.mp hmem with rfl | hmem
    · exact hz0
    · rwa [List.mem_singleton.mp hmem]

/-- A mount in which every call succeeds, on a device set to blocks of `size` bytes. -/
def quietMount (size : Nat) : MountEnv where
  blockSize := size
  logicalBlockSize := 512
  kzalloc := fun _ => true
  sbBread := fun _ => true
  igetLocked := true
  dMakeRoot := true
  leftover := fun _ => 0

/-- Mounting a blank device uses the first block of a map that has none. -/
theorem mount_blank_unsafe :
    ¬∃ ret, mountAufsFillSb (quietMount 4096) (blankDevice (2 ^ 20)) = .ok ret ∧
      (∀ blocks ∈ (aufsSuperBlockReadUses (quietMount 4096) (blankDevice (2 ^ 20))).2,
        blocks ≠ 0) ∧
      (be32 (blankDevice (2 ^ 20)).bytes dsbMagic ≠ AUFS_MAGIC → ∃ e, ret = .error e) := by
  rintro ⟨ret, hret, -⟩
  obtain ⟨maps, hread⟩ := mount_returns_iff.mp ⟨ret, hret⟩
  obtain ⟨-, -, -, -, _, _, _, -, himap, -⟩ := aufsSuperBlockRead_eq_some.mp hread
  exact absurd (readMapBlocks_cons himap).1 (by decide)

/-! ## The maps of an image -/

theorem fillSbFrom_ok {maps : SuperBlockMaps} {fs : MountedFs}
    (h : fillSbFrom env dev maps = .ok fs) :
    fs.sb.sbi = maps.asb ∧
      fs.sb.sBlocksize = (if maps.asb.asbZoneSize > 4096 then 4096 else maps.asb.asbZoneSize) ∧
      fs.sZmap = maps.sZmap ∧ fs.sImap = maps.sImap := by
  simp only [fillSbFrom] at h
  generalize (if maps.asb.asbZoneSize > 4096 then 4096 else maps.asb.asbZoneSize) = blocksize at h ⊢
  split at h
  · cases h
  split at h
  · cases h
  split at h
  · cases h
  split at h
  · cases h
  split at h
  · cases h
  · cases h
    exact ⟨rfl, rfl, rfl, rfl⟩

/-- After a mount that succeeded, `sb` is what the super block says, and the first buffers of the
maps are blocks of the size in force before. -/
theorem mount_ok {fs : MountedFs} (h : mountAufsFillSb env dev = .ok (.ok fs)) :
    dev.HasBlock env.blockSize 0 ∧ fs.sb = aufsFillSb dev.bytes ∧
      (dev.superBlock.asbZoneMapBlocks ≠ 0 → ∃ zbh, fs.sZmap.head? = some zbh ∧
        zbh.bBlocknr = 1 ∧ zbh.bSize = env.blockSize) ∧
      ∃ ibh, fs.sImap.head? = some ibh ∧
        ibh.bBlocknr = 1 + dev.superBlock.asbZoneMapBlocks ∧ ibh.bSize = env.blockSize := by
  obtain ⟨maps, hread⟩ := mount_returns_iff.mp ⟨_, h⟩
  simp only [mountAufsFillSb, hread, Except.ok.injEq] at h
  obtain ⟨hsbi, hblocksize, hsz, hsi⟩ := fillSbFrom_ok h
  obtain ⟨-, hbh, -, -, zbhs, ibh, ibhs, hzmap, himap, rfl⟩ :=
    aufsSuperBlockRead_eq_some.mp hread
  obtain ⟨bh, hbh⟩ := Option.isSome_iff_exists.mp hbh
  obtain ⟨-, hino, hisize⟩ := readMapBlocks_cons himap
  refine ⟨(sbBread_eq_some hbh).1, ?_, fun hz0 => ?_, ibh.setFirstBit, by rw [hsi]; rfl, hino,
    hisize⟩
  · cases fs with
    | mk sb =>
      cases sb
      simp only at hsbi hblocksize
      rw [hsbi, hblocksize]
      rfl
  · cases zbhs with
    | nil => exact absurd (readMapBlocks_length hzmap).symm hz0
    | cons zbh zbhs =>
      obtain ⟨-, hzno, hzsize⟩ := readMapBlocks_cons hzmap
      exact ⟨zbh.setFirstBit, by rw [hsz]; rfl, hzno, hzsize⟩

/-- The bytes of the device that a buffer stands for. -/
def Buffer.bytes (bh : Buffer) : Set Nat :=
  Set.Ico (bh.bBlocknr * bh.bSize) ((bh.bBlocknr + 1) * bh.bSize)

/-- The bytes of the device that mkfs writes as block `no`. -/
def Configuration.blockBytes (config : Configuration) (no : Nat) : Set Nat :=
  Set.Ico (no * config.blockSize) ((no + 1) * config.blockSize)

/-- Buffers of the same blocks stand for the same bytes only in the same block size. -/
theorem Ico_block_eq {n b b' : Nat} (hn : 1 ≤ n) (hb : 0 < b')
    (h : Set.Ico (n * b) ((n + 1) * b) = Set.Ico (n * b') ((n + 1) * b')) : b = b' := by
  have hmem : n * b' ∈ Set.Ico (n * b) ((n + 1) * b) := by
    rw [h]
    exact ⟨Nat.le_refl _, Nat.mul_lt_mul_of_pos_right (by omega) hb⟩
  have hpos : 0 < b := by
    by_contra h0
    obtain rfl : b = 0 := by omega
    simp at hmem
  have hmem' : n * b ∈ Set.Ico (n * b') ((n + 1) * b') := by
    rw [← h]
    exact ⟨Nat.le_refl _, Nat.mul_lt_mul_of_pos_right (by omega) hpos⟩
  have heq : n * b = n * b' := Nat.le_antisymm hmem.1 hmem'.1
  exact Nat.eq_of_mul_eq_mul_left hn heq

theorem writeBlock_bytes {config : Configuration} {no no' k : Nat} (block : Mem)
    (hk : k < config.blockSize) :
    (writeBlock config dev no block).bytes (no' * config.blockSize + k) =
      if no' = no ∧ no' * config.blockSize + k < dev.size then block k
      else dev.bytes (no' * config.blockSize + k) := by
  have hsame : no * config.blockSize ≤ no' * config.blockSize + k ∧
      no' * config.blockSize + k < (no + 1) * config.blockSize ↔ no' = no := by
    constructor
    · rintro ⟨hle, hlt⟩
      have h1 : no ≤ no' := by
        by_contra hgt
        have := Nat.mul_le_mul_right config.blockSize (show no' + 1 ≤ no by omega)
        rw [Nat.add_mul, Nat.one_mul] at this
        omega
      have h2 : no' ≤ no := by
        by_contra hgt
        have := Nat.mul_le_mul_right config.blockSize (show no + 1 ≤ no' by omega)
        omega
      omega
    · rintro rfl
      rw [Nat.add_mul, Nat.one_mul]
      omega
  simp only [writeBlock, ← and_assoc, hsame]
  split
  · next h => rw [h.1, Nat.add_sub_cancel_left]
  · rfl

@[simp] theorem writeBlock_size (config : Configuration) (no : Nat) (block : Mem) :
    (writeBlock config dev no block).size = dev.size := rfl

section
variable {config : Configuration} {image : Image} {menv : MkfsEnv} {fuel : Nat}

theorem fillInodeBlock_one (H : config.Accepted) : Inode.fillInodeBlock config 1 = 3 := by
  have hin := H.inodesInBlock_cases
  have hdiv : 1 / config.inodesInBlock = 0 := Nat.div_eq_of_lt (by omega)
  change 1 / config.inodesInBlock + 1 + config.numInodeMapBlocks + config.numZoneMapBlocks = 3
  rw [hdiv, H.inodeMapBlocks, H.zoneMapBlocks]

/-- The device after mkfs, block by block. -/
theorem device_bytes (H : config.Accepted) (image : Image) (dev : Device) {no k : Nat}
    (hk : k < config.blockSize) (hsize : no * config.blockSize + k < dev.size) :
    (image.device config dev).bytes (no * config.blockSize + k) =
      if no = config.blocksPerZone + 1024 then image.rootContent k
      else if no = 3 then image.inodeBlock k
      else if no = 2 then image.inodeMap k
      else if no = 1 then image.zoneMap k
      else if no = 0 then image.superBlock k
      else dev.bytes (no * config.blockSize + k) := by
  simp only [Image.device, writeBlock_bytes _ hk, writeBlock_size, hsize, and_true,
    H.rootBlock_eq, fillInodeBlock_one H, H.zoneMapBlocks]

theorem device_superBlock (H : config.Accepted) (image : Image) (dev : Device) {k : Nat}
    (hk : k < config.blockSize) (hsize : k < dev.size) :
    (image.device config dev).bytes k = image.superBlock k := by
  have h := device_bytes H image dev hk (show 0 * config.blockSize + k < dev.size by omega)
  rw [if_neg (by omega), if_neg (by omega), if_neg (by omega), if_neg (by omega), if_pos rfl] at h
  rw [← h, Nat.zero_mul, Nat.zero_add]

theorem device_superBlock_eq (H : config.Accepted) (image : Image) (dev : Device)
    (hsize : 28 ≤ dev.size) :
    (image.device config dev).superBlock = (aufsFillSb image.superBlock).sbi := by
  have hbs := H.blockSize_cases
  exact aufsSuperBlockFill_congr fun k hk => device_superBlock H image dev (by omega) (by omega)

/-- The block of the inode table that holds the root inode. -/
theorem device_inodeBlock (H : config.Accepted) (image : Image) {k : Nat}
    (hk : k < config.blockSize) (hblock : dev.HasBlock config.blockSize 3) :
    (image.device config dev).bytes (3 * config.blockSize + k) = image.inodeBlock k := by
  unfold Device.HasBlock at hblock
  rw [device_bytes H image dev hk (by omega), if_neg (by omega), if_pos rfl]

/-- An image can be mounted from a device in blocks of any size, if the device has the blocks. -/
theorem mount_image (size : Nat) (dev : Device) (H : config.Accepted)
    (hf : image.Formatted config menv) (hsize : 28 ≤ size) (hblocks : dev.HasBlock size 2)
    (hinode : dev.HasBlock config.blockSize 3) :
    ∃ fs, mountAufsFillSb (quietMount size) (image.device config dev) = .ok (.ok fs) := by
  have R := aufsFillSb_reads H hf
  have hbs := H.blockSize_cases
  have hdev : ∀ n ≤ 2, (image.device config dev).HasBlock size n := by
    intro n hn
    change (2 + 1) * size ≤ dev.size at hblocks
    change (n + 1) * size ≤ dev.size
    exact Nat.le_trans (Nat.mul_le_mul_right _ (by omega)) hblocks
  have hread : ∀ n ≤ 2, (sbBread (quietMount size) (image.device config dev) n size n).isSome := by
    intro n hn
    rw [sbBread, if_pos ⟨rfl, hdev n hn⟩]
    rfl
  have hfields := device_superBlock_eq H image dev (by
    have h0 : (0 + 1) * size ≤ dev.size := hdev 0 (by omega)
    omega)
  obtain ⟨zbh, zbhs, ibh, ibhs, hzmap, himap⟩ :=
    (maps_read_iff (quietMount size) (image.device config dev) 1 1).mpr
      ⟨fun n _ hn => hread n hn, by decide, by decide⟩
  have hmaps : aufsSuperBlockRead (quietMount size) (image.device config dev) = .ok (some _) :=
    aufsSuperBlockRead_eq_some.mpr ⟨rfl, hread 0 (by omega), rfl, by rw [hfields, R.magic],
      zbh :: zbhs, ibh, ibhs, by rwa [hfields, R.zoneMapBlocks],
      by rwa [hfields, R.zoneMapBlocks, R.inodeMapBlocks], rfl⟩
  have hset : sbSetBlocksize (quietMount size) config.blockSize = true := by
    rcases hbs with h | h | h | h <;> rw [h] <;> rfl
  have hblocksize : (if (aufsFillSb image.superBlock).sbi.asbZoneSize > 4096 then 4096
      else (aufsFillSb image.superBlock).sbi.asbZoneSize) = config.blockSize := R.blocksize
  have hblockno : aufsInodeBlock (aufsFillSb image.superBlock).sbi
      (aufsFillSb image.superBlock).sbi.asbRootInode = 3 := by
    rw [aufsInodeBlock, R.inodeMapBlocks, R.zoneMapBlocks, R.rootInode, R.inodesInBlock]
  have hoffset : aufsInodeOffset (aufsFillSb image.superBlock).sbi
      (aufsFillSb image.superBlock).sbi.asbRootInode = 64 := by
    rw [aufsInodeOffset, R.rootInode, R.inodesInBlock]
  obtain ⟨root, hroot, -⟩ := aufsInodeGet_root H R hf (quietMount size).leftover
  have hslot : aufsInodeGet (quietMount size).leftover
      (aufsFillSb image.superBlock).sbi.asbRootInode
      (fun k => (image.device config dev).bytes (3 * config.blockSize + (64 + k))) = .ok root := by
    rw [← hroot, aufsInodeGet, aufsInodeGet, aufsInodeFill_congr]
    intro k hk
    rw [device_inodeBlock H image (by omega) hinode, Image.rootSlot, hoffset]
  have hbh : sbBread (quietMount size) (image.device config dev)
      (1 + (aufsFillSb image.superBlock).sbi.asbZoneMapBlocks +
        (aufsFillSb image.superBlock).sbi.asbInodeMapBlocks) config.blockSize 3 =
      some { bBlocknr := 3, bSize := config.blockSize,
             bData := fun k => (image.device config dev).bytes (3 * config.blockSize + k) } := by
    rw [sbBread, if_pos ⟨rfl, hinode⟩]
  refine ⟨{ sb := { sbi := (aufsFillSb image.superBlock).sbi, sBlocksize := config.blockSize }
            sZmap := zbh.setFirstBit :: zbhs
            sImap := ibh.setFirstBit :: ibhs
            root := root }, ?_⟩
  simp only [mountAufsFillSb, hmaps, fillSbFrom, hfields, hblocksize, hset, hblockno, hbh, hoffset,
    hslot, Bool.true_eq_false, if_false]
  rfl

/-- The first buffers of the maps after a mount of an image. -/
theorem mounted_maps {fs : MountedFs} (H : config.Accepted) (hf : image.Formatted config menv)
    (hsize : 28 ≤ env.blockSize)
    (hmount : mountAufsFillSb env (image.device config dev) = .ok (.ok fs)) :
    fs.sb.sBlocksize = config.blockSize ∧
      ∃ zbh ibh, fs.sZmap.head? = some zbh ∧ fs.sImap.head? = some ibh ∧
        zbh.bBlocknr = 1 ∧ zbh.bSize = env.blockSize ∧
        ibh.bBlocknr = 2 ∧ ibh.bSize = env.blockSize := by
  have R := aufsFillSb_reads H hf
  obtain ⟨hblock, hsb, hzmap, ibh, hi, hino, hisize⟩ := mount_ok hmount
  have hdev : 28 ≤ dev.size := by
    change (0 + 1) * env.blockSize ≤ dev.size at hblock
    omega
  have hfields := device_superBlock_eq H image dev hdev
  rw [hfields, R.zoneMapBlocks] at hino hzmap
  obtain ⟨zbh, hz, hzno, hzsize⟩ := hzmap (by decide)
  refine ⟨?_, zbh, ibh, hz, hi, hzno, hzsize, hino, hisize⟩
  change aufsSuperBlockFill .zero (image.device config dev).bytes =
    aufsSuperBlockFill .zero image.superBlock at hfields
  rw [hsb, ← R.blocksize]
  simp only [aufsFillSb, hfields]

/-- The map buffers are read before the block size is set: they are the maps that mkfs wrote
exactly when the device had the file system's block size already. -/
theorem mounted_maps_iff {deviceSize : String → Nat} {argv : List String} {fs : MountedFs}
    (hargs : parseArgs deviceSize argv = .ok config)
    (himage : mkfs menv fuel config dev = some image) (hsize : 512 ≤ env.blockSize)
    (hmount : mountAufsFillSb env (image.device config dev) = .ok (.ok fs)) :
    (∃ zbh ibh, fs.sZmap.head? = some zbh ∧ fs.sImap.head? = some ibh ∧
      zbh.bytes = config.blockBytes 1 ∧
      ibh.bytes = config.blockBytes (1 + config.numZoneMapBlocks) ∧
      8 * fs.sb.sBlocksize ≤ 8 * zbh.bSize ∧ 8 * fs.sb.sBlocksize ≤ 8 * ibh.bSize) ↔
    env.blockSize = config.blockSize := by
  have H := accepted_of_parseArgs hargs
  obtain ⟨hblocksize, zbh, ibh, hz, hi, hzno, hzsize, hino, hisize⟩ :=
    mounted_maps H (mkfs_formatted H himage) (by omega) hmount
  constructor
  · rintro ⟨zbh', -, hz', -, hzbytes, -⟩
    cases hz.symm.trans hz'
    unfold Buffer.bytes Configuration.blockBytes at hzbytes
    rw [hzno, hzsize] at hzbytes
    exact Ico_block_eq (Nat.le_refl 1) H.blockSize_pos hzbytes
  · intro heq
    refine ⟨zbh, ibh, hz, hi, ?_, ?_, ?_, ?_⟩
    · rw [Buffer.bytes, Configuration.blockBytes, hzno, hzsize, heq]
    · rw [Buffer.bytes, Configuration.blockBytes, hino, hisize, heq, H.zoneMapBlocks]
    · rw [hblocksize, hzsize, heq]
    · rw [hblocksize, hisize, heq]

theorem mounted_maps_eightZones :
    ∃ image fs, mkfs rootEnv 1 eightZones (blankDevice (2 ^ 20)) = some image ∧
      mountAufsFillSb (quietMount 4096) (image.device eightZones (blankDevice (2 ^ 20))) =
        .ok (.ok fs) ∧
      ∃ zbh, fs.sZmap.head? = some zbh ∧ zbh.bytes = eightZones.blockBytes 1 := by
  have H := accepted_of_parseArgs eightZones_parsed
  obtain ⟨image, himage, hf, -⟩ := exists_image H rootEnv (blankDevice (2 ^ 20))
  obtain ⟨fs, hfs⟩ := mount_image 4096 (blankDevice (2 ^ 20)) H hf (by decide) (by decide)
    (by decide)
  obtain ⟨zbh, -, hz, -, hbytes, -⟩ :=
    (mounted_maps_iff eightZones_parsed himage (by decide) hfs).mpr rfl
  exact ⟨image, fs, himage, hfs, zbh, hz, hbytes⟩

/-- Zones of 512 bytes on a device set to blocks of 4096: the kernel takes its zone map from
the end of the inode table. -/
theorem mounted_maps_smallZones :
    parseArgs (fun _ => 2 ^ 20) ["-s", "512", "-b", "64", "/dev/nvme0n1"] = .ok smallZones ∧
    ∃ image fs, mkfs rootEnv 1 smallZones (blankDevice (2 ^ 20)) = some image ∧
      mountAufsFillSb (quietMount 4096) (image.device smallZones (blankDevice (2 ^ 20))) =
        .ok (.ok fs) ∧
      ¬∃ zbh ibh, fs.sZmap.head? = some zbh ∧ fs.sImap.head? = some ibh ∧
        zbh.bytes = smallZones.blockBytes 1 ∧
        ibh.bytes = smallZones.blockBytes (1 + smallZones.numZoneMapBlocks) ∧
        8 * fs.sb.sBlocksize ≤ 8 * zbh.bSize ∧ 8 * fs.sb.sBlocksize ≤ 8 * ibh.bSize := by
  have hargs : parseArgs (fun _ => 2 ^ 20) ["-s", "512", "-b", "64", "/dev/nvme0n1"] =
      .ok smallZones := by decide
  have H := accepted_of_parseArgs hargs
  obtain ⟨image, himage, hf, -⟩ := exists_image H rootEnv (blankDevice (2 ^ 20))
  obtain ⟨fs, hfs⟩ := mount_image 4096 (blankDevice (2 ^ 20)) H hf (by decide) (by decide)
    (by decide)
  obtain ⟨-, zbh, -, hz, -, hzno, hzsize, -⟩ := mounted_maps H hf (by decide) hfs
  refine ⟨hargs, image, fs, himage, hfs, ?_⟩
  rintro ⟨zbh', -, hz', -, hzbytes, -⟩
  cases hz.symm.trans hz'
  unfold Buffer.bytes Configuration.blockBytes at hzbytes
  rw [hzno, hzsize] at hzbytes
  exact absurd (Ico_block_eq (Nat.le_refl 1) (by decide) hzbytes) (by decide)

end

end Aufs
