import Aufs.Mkfs.Geometry

/-! What a run of `mkfs.aufs` leaves, for an accepted configuration: the run always gives an
image (`mkfs_spec`), and `Image.Formatted` says which bits of the maps are clear and what the
super block, the root inode and the root directory hold. -/

namespace Aufs
open Bytes Word

open BitIterator

/-! ## Filling a map -/

/-- A map with its first bit set, the bits up to `blocks` clear and the rest of `bits` set. -/
def filledMap (m : Mem) (blocks bits : Nat) : Mem :=
  fillBits (fillBits (fillBits m 0 1 true) 1 (blocks - 1) false) blocks (bits - blocks) true

theorem bit_filledMap (h1 : 1 ≤ blocks) (h2 : blocks ≤ bits) (hi : i < bits) :
    bit (filledMap m blocks bits) i = false ↔ 1 ≤ i ∧ i < blocks := by
  simp only [filledMap, bit_fillBits]
  by_cases h : i < blocks
  · rw [if_neg (by omega)]
    by_cases h0 : i = 0
    · rw [if_neg (by omega), if_pos (by omega)]
      simp [h0]
    · rw [if_pos (by omega)]
      simp only [true_iff]
      omega
  · rw [if_pos (by omega)]
    simp only [Bool.true_eq_false, false_iff]
    omega

/-- The three calls of `std::fill` shared by `FillZoneMap` and `FillInodeMap`. -/
theorem stdFill_filledMap (h1 : 1 ≤ blocks) (h2 : blocks ≤ bits) (hb : bits < 2 ^ 40) :
    (do
      let it : BitIterator := { mData := 0, mOffset := 0 }
      let m ← stdFill m it (it.advance 1) true
      let m ← stdFill m (it.advance 1) (it.advance blocks) false
      stdFill m (it.advance blocks) (it.advance bits) true) = some (filledMap m blocks bits) := by
  have hone : advance { mData := 0, mOffset := 0 } 1 = atBit 1 := start_advance (by decide)
  simp only [hone, start_advance (show blocks < 2 ^ 60 by omega),
    start_advance (show bits < 2 ^ 60 by omega)]
  rw [start_eq, stdFill_atBit (by decide) (by decide)]
  simp only [stdFill_atBit h1 (Nat.lt_of_le_of_lt h2 (Nat.lt_trans hb (by decide))),
    stdFill_atBit h2 (Nat.lt_trans hb (by decide)), Option.bind_eq_bind, Option.bind_some]
  rfl

/-! ## The allocators -/

namespace SuperBlock

variable {config : Configuration}

/-- How many bits the allocators search in a map of `mapBlocks` blocks of `size` bytes: its size in
bits, taken for a size in bytes. -/
def searchedBits (mapBlocks size : Nat) : Nat := Bits * (mapBlocks * size * 8)

theorem mapEnd_eq (mapBlocks size : Nat) :
    ({ mData := mapBlocks * size * 8, mOffset := 0 } : BitIterator) =
      atBit (searchedBits mapBlocks size) := (atBit_byte _).symm

theorem searchedBits_lt (config : Configuration) (h : mapBlocks < 2 ^ 32) :
    searchedBits mapBlocks config.blockSize < 2 ^ 60 := by
  have hle : config.blockSize ≤ 4096 := blockSizeOf_le
  have hmul : mapBlocks * config.blockSize ≤ 2 ^ 32 * 4096 := Nat.mul_le_mul (by omega) hle
  simp only [searchedBits, Bits]
  omega

/-- `AllocateInode` takes the first clear bit of the range. -/
theorem allocateInode_eq (hmap : config.numInodeMapBlocks < 2 ^ 32) :
    allocateInode config m =
      let n := searchedBits config.numInodeMapBlocks config.blockSize
      let p := findBit m false 0 n
      if p < n then .ok (u32 p, setBit m p true)
      else .error (.exception "Cannot allocate inode") := by
  have hlt := searchedBits_lt config hmap
  simp only [allocateInode]
  rw [mapEnd_eq, start_eq]
  generalize searchedBits config.numInodeMapBlocks config.blockSize = n at hlt ⊢
  have hle : findBit m false 0 n ≤ 0 + n := findBit_le
  rw [stdFind_atBit (Nat.zero_le _) hlt, Nat.sub_zero, deref_assign atBit_offset, atBit_pos,
    atBit_distance (Nat.zero_le _) (by omega), Nat.sub_zero]
  simp only [ne_eq, atBit_inj]
  split
  · rw [if_pos (by omega)]
  · rw [if_neg (by omega)]

/-- One round of `AllocateZones` at bit `p`: the clear bits from `p` on are enough, or the next
round is at the set bit behind them. -/
theorem allocateZonesLoop_succ {k : Nat} (hp : p < n) (hn : n < 2 ^ 60) :
    allocateZonesLoop m (atBit 0) (atBit n) k (fuel + 1) (atBit p) =
      let q := findBit m true p (n - p)
      if k ≤ q - p then some (.ok (u32 p, fillBits m p k true))
      else allocateZonesLoop m (atBit 0) (atBit n) k fuel (atBit q) := by
  have hge : p ≤ findBit m true p (n - p) := le_findBit
  have hle : findBit m true p (n - p) ≤ p + (n - p) := findBit_le
  rw [allocateZonesLoop, if_pos (by rw [ne_eq, atBit_inj]; omega)]
  simp only
  rw [stdFind_atBit (by omega) hn]
  generalize findBit m true p (n - p) = q at hge hle ⊢
  rw [atBit_distance hge (by omega), atBit_distance (Nat.zero_le _) (by omega), Nat.sub_zero]
  by_cases hk : k ≤ q - p
  · rw [if_pos hk, if_pos hk, atBit_advance (by omega) (by omega), stdFill_atBit (by omega)
      (by omega), Nat.add_sub_cancel_left]
    rfl
  · rw [if_neg hk, if_neg hk]

theorem allocateZonesLoop_end {k : Nat} :
    allocateZonesLoop m (atBit 0) (atBit n) k (fuel + 1) (atBit n) =
      some (.error (.exception "Cannot allocate zones")) := by
  rw [allocateZonesLoop, if_neg (by rw [ne_eq, not_not])]

theorem allocateZones_eq {k : Nat} (hmap : config.numZoneMapBlocks < 2 ^ 32) :
    allocateZones fuel config m k =
      let n := searchedBits config.numZoneMapBlocks config.blockSize
      allocateZonesLoop m (atBit 0) (atBit n) k fuel (atBit (findBit m false 0 n)) := by
  have hlt := searchedBits_lt config hmap
  simp only [allocateZones]
  rw [mapEnd_eq, start_eq, stdFind_atBit (Nat.zero_le _) hlt, Nat.sub_zero]

/-- With bit 0 set and bit 1 clear, the first clear bit is bit 1. -/
theorem findBit_fresh (h0 : bit m 0 = true) (h1 : bit m 1 = false) (hn : 1 < n) :
    findBit m false 0 n = 1 := by
  apply findBit_eq (by omega) (by omega) h1
  intro k _ hk
  rw [show k = 0 by omega, h0]
  decide

theorem allocateInode_fresh (H : config.Accepted) (h0 : bit m 0 = true) (h1 : bit m 1 = false) :
    allocateInode config m = .ok (1, setBit m 1 true) := by
  have hbs := H.blockSize_cases
  have hn : 1 < searchedBits config.numInodeMapBlocks config.blockSize := by
    rw [H.inodeMapBlocks, searchedBits, Bits]
    omega
  rw [allocateInode_eq (by rw [H.inodeMapBlocks]; decide)]
  simp only
  rw [findBit_fresh h0 h1 hn, if_pos hn]
  rfl

/-- The run of clear bits from bit 1 on has at least the one bit asked for. -/
theorem allocateZones_fresh (H : config.Accepted) (h0 : bit m 0 = true) (h1 : bit m 1 = false) :
    allocateZones (fuel + 1) config m 1 = some (.ok (1, fillBits m 1 1 true)) := by
  have hbs := H.blockSize_cases
  have hmap : config.numZoneMapBlocks < 2 ^ 32 := by
    rw [H.zoneMapBlocks]
    decide
  have hlt := searchedBits_lt config hmap
  have hn : 1 < searchedBits config.numZoneMapBlocks config.blockSize := by
    rw [H.zoneMapBlocks, searchedBits, Bits]
    omega
  rw [allocateZones_eq hmap]
  simp only
  generalize searchedBits config.numZoneMapBlocks config.blockSize = n at hlt hn ⊢
  have hrun : 1 + 1 ≤ findBit m true 1 (n - 1) := by
    rw [show n - 1 = n - 2 + 1 by omega, findBit, if_neg (by rw [h1]; decide)]
    exact le_findBit
  rw [findBit_fresh h0 h1 hn, allocateZonesLoop_succ hn hlt]
  simp only
  rw [if_pos (by omega)]
  rfl

end SuperBlock

/-! ## The image -/

/-- What the blocks of an image hold; `old` is what the device held before. -/
structure Image.Formatted (image : Image) (config : Configuration) (env : MkfsEnv) : Prop where
  zoneMap : ∀ i < config.blockSize * 8,
    bit image.zoneMap i = false ↔ 2 ≤ i ∧ i < config.numZones
  inodeMap : ∀ i < config.blockSize * 8,
    bit image.inodeMap i = false ↔ 2 ≤ i ∧ i < SuperBlock.numInodes config
  superBlock : ∃ old, image.superBlock =
    SuperBlock.setRootInode (SuperBlock.fillSuper config old) 1
  inodeBlock : ∃ old, image.inodeBlock =
    rootInodeSlot env old (Inode.fillInodeOffset config 1) (mkfsZoneBlock config 1) 1
  rootContent : ∃ old, image.rootContent = rootDirContent old

theorem bit_filledMap_taken (h1 : 2 ≤ blocks) (h2 : blocks ≤ bits) (hi : i < bits) :
    (if 1 ≤ i ∧ i < 1 + 1 then true else bit (filledMap m blocks bits) i) = false ↔
      2 ≤ i ∧ i < blocks := by
  by_cases h : i = 1
  · rw [if_pos (by omega)]
    simp only [Bool.true_eq_false, false_iff]
    omega
  · rw [if_neg (by omega), bit_filledMap (by omega) h2 hi]
    omega

theorem mkfs_spec {config : Configuration} (H : config.Accepted) (env : MkfsEnv) (fuel : Nat)
    (dev : Device) :
    ∃ image, mkfs env (fuel + 1) config dev = some image ∧ image.Formatted config env := by
  have hbs := H.blockSize_cases
  have hn := H.three_lt
  have hle := H.numZones_le
  have hi4 := H.four_le_numInodes
  have hile : SuperBlock.numInodes config ≤ config.blockSize * 8 := by
    rw [H.numInodes_eq]
    exact Nat.min_le_right _ _
  have hbits : u32 (1 * config.blockSize * 8) = config.blockSize * 8 := by
    rw [Nat.one_mul, u32_of_lt (by omega)]
  have hz : ∀ m, SuperBlock.fillZoneMap config m =
      some (filledMap m config.numZones (config.blockSize * 8)) := by
    intro m
    unfold SuperBlock.fillZoneMap
    simp only [H.zoneMapBlocks, hbits, Nat.min_eq_left hle]
    exact stdFill_filledMap (by omega) hle (by omega)
  have hino : ∀ m, SuperBlock.fillInodeMap config m =
      some (filledMap m (SuperBlock.numInodes config) (config.blockSize * 8)) := by
    intro m
    unfold SuperBlock.fillInodeMap
    simp only [H.inodeMapBlocks, hbits]
    exact stdFill_filledMap (by omega) hile (by omega)
  have hbit0 : ∀ m n, 2 ≤ n → n ≤ config.blockSize * 8 →
      bit (filledMap m n (config.blockSize * 8)) 0 = true ∧
        bit (filledMap m n (config.blockSize * 8)) 1 = false := by
    intro m n h2 hle
    refine ⟨?_, (bit_filledMap (by omega) hle (by omega)).mpr (by omega)⟩
    rw [← Bool.not_eq_false, bit_filledMap (by omega) hle (by omega)]
    omega
  have hblocks : u32 (2 * AUFS_DIR_SIZE + config.zoneSize - 1) / config.zoneSize = 1 := by
    have hge := H.zoneSize_ge
    obtain ⟨k, -, hk, hzs⟩ := H.zoneSize_pow
    have hlt : 2 ^ k ≤ 2 ^ 31 := Nat.pow_le_pow_right (by omega) (by omega)
    rw [AUFS_DIR_SIZE, u32_of_lt (by omega)]
    apply Nat.div_eq_of_lt_le <;> omega
  obtain ⟨hi0, hi1⟩ := hbit0 (readBlock env config dev (1 + config.numZoneMapBlocks)) _
    (by omega) hile
  obtain ⟨hz0, hz1⟩ := hbit0 (readBlock env config dev 1) config.numZones (by omega) hle
  have hai := SuperBlock.allocateInode_fresh H hi0 hi1
  have haz : SuperBlock.allocateZones (fuel + 1) config _ 1 = _ :=
    SuperBlock.allocateZones_fresh H hz0 hz1
  unfold mkfs
  simp only [hz, hino, hai, haz, hblocks, Option.bind_eq_bind, Option.bind_some, Except.toOption,
    guard, if_true, Option.pure_def]
  refine ⟨_, rfl, ⟨?_, ?_, ⟨_, rfl⟩, ⟨_, rfl⟩, ⟨_, rfl⟩⟩⟩
  · intro i hi
    simp only [bit_fillBits]
    exact bit_filledMap_taken (by omega) hle hi
  · intro i hi
    have h1 : i = 1 ↔ 1 ≤ i ∧ i < 1 + 1 := by omega
    simp only [bit_setBit, h1]
    exact bit_filledMap_taken (by omega) hile hi

/-- Every image comes from a run that stops. -/
theorem mkfs_formatted {config : Configuration} (H : config.Accepted)
    (h : mkfs env fuel config dev = some image) : image.Formatted config env := by
  cases fuel with
  | zero =>
    simp [mkfs, SuperBlock.allocateZones, SuperBlock.allocateZonesLoop] at h
  | succ fuel =>
    obtain ⟨image', h', hf⟩ := mkfs_spec H env fuel dev
    rw [h] at h'
    cases h'
    exact hf

theorem toOption_eq_some {x : Except ε α} (h : x.toOption = some a) : x = .ok a := by
  cases x with
  | error e => cases h
  | ok b =>
    cases h
    rfl

/-- What the two allocators of `MkRootDir` return, in a run that gives an image. -/
theorem mkfs_allocates (h : mkfs env fuel config dev = some image) :
    ∃ zoneMap inodeMap,
      SuperBlock.fillZoneMap config (readBlock env config dev 1) = some zoneMap ∧
      SuperBlock.fillInodeMap config (readBlock env config dev (1 + config.numZoneMapBlocks)) =
        some inodeMap ∧
      SuperBlock.allocateInode config inodeMap = .ok (1, image.inodeMap) ∧
      SuperBlock.allocateZones fuel config zoneMap
        (u32 (2 * AUFS_DIR_SIZE + config.zoneSize - 1) / config.zoneSize) =
          some (.ok (1, image.zoneMap)) := by
  simp only [mkfs, Option.bind_eq_bind, Option.bind_eq_some_iff] at h
  obtain ⟨zoneMap, hzone, inodeMap, hinode, ⟨ino, inodeMap'⟩, hallocInode, _, hino, allocated,
    hallocZones, ⟨zone, zoneMap'⟩, hok, _, hzone1, himage⟩ := h
  obtain rfl : ino = 1 := (Option.guard_eq_some' _).mp hino
  obtain rfl : zone = 1 := (Option.guard_eq_some' _).mp hzone1
  obtain rfl := toOption_eq_some hok
  cases himage
  exact ⟨zoneMap, inodeMap, hzone, hinode, toOption_eq_some hallocInode, hallocZones⟩

end Aufs
