import Aufs.Verify.InodeCache
import Aufs.Verify.Layout

/-! Where `aufs_get_block` maps file blocks: onto a zone that was taken, as long as a block without
a zone finds a free one. The module never tests for the 0 that `aufs_new_zone` returns when there
is none. -/

namespace Aufs
open Bytes Word

variable {config : Configuration} {sb : Sb}

/-- Block `b` lies in a zone whose bit is set: one of the kernel's zones, or the zone of the root
directory where mkfs placed it. -/
def DataBlock (config : Configuration) (sb : Sb) (zmap : MapBlocks) (b : Nat) : Prop :=
  (∃ j, 2 ≤ j ∧ j < config.numZones ∧ bit (zmap 0) j = true ∧
    sb.zoneStart config j ≤ b ∧ b < sb.zoneStart config j + config.blocksPerZone) ∨
  bit (zmap 0) 1 = true ∧
    mkfsZoneBlock config 1 ≤ b ∧ b < mkfsZoneBlock config 1 + config.blocksPerZone

/-- What is asked of a call: a mapped block is a data block and not one of the metadata, and
nothing is mapped when there is no zone for it. -/
structure MapsData (config : Configuration) (sb : Sb) (zmap : MapBlocks) (inode : AufsInode)
    (iblock : Nat) (r : GetBlock) : Prop where
  data : ∀ b, r.ret = .ok b → DataBlock config sb r.zmap b ∧ config.metadataBlocks ≤ b
  full : ¬config.HasZone inode iblock → sb.MapFull zmap → ∃ e, r.ret = .error e

/-- A step that maps a file block does so where it has a zone or can take one. -/
def InodeCache.MapsOk (config : Configuration) (sb : Sb) (s : InodeCache) (op : CacheOp) : Prop :=
  ∀ inode iblock, s.mapping sb op = some (inode, iblock) →
    config.HasZone inode iblock ∨ sb.FreeZone config s.zmap

/-! ## The invariant -/

/-- The zones below `n` are taken, and their block numbers fit an `int`. -/
structure ZonesTaken (config : Configuration) (sb : Sb) (zmap : MapBlocks) (n : Nat) : Prop where
  ge : 2 ≤ n
  le : n ≤ config.numZones
  clear : ∀ i < 8 * sb.sBlocksize, bit (zmap 0) i = false ↔ n ≤ i ∧ i < config.numZones
  fit : ∀ j < n, sb.zoneStart config j < 2 ^ 31

/-- A zone pointer while the zones below `n` are taken. -/
def ZonePtr (config : Configuration) (sb : Sb) (n z : Nat) : Prop :=
  z = 0 ∨ z = mkfsZoneBlock config 1 ∨ ∃ j, 2 ≤ j ∧ j < n ∧ z = sb.zoneStart config j

theorem ZonePtr.mono (h : ZonePtr config sb n z) (hle : n ≤ n') : ZonePtr config sb n' z := by
  rcases h with h | h | ⟨j, h2, hlt, h⟩
  · exact .inl h
  · exact .inr (.inl h)
  · exact .inr (.inr ⟨j, h2, by omega, h⟩)

/-- Zone pointers of an inode, and of its slot once it is clean. -/
def PtrsOk (config : Configuration) (sb : Sb) (n : Nat) (inode : AufsInode) (slot : Mem) : Prop :=
  (∀ i, ZonePtr config sb n (inode.aiZonePtr i)) ∧
    (inode.iDirty = false → ∀ i : Fin ZONE_PTR_IN_INODE_NUM,
      ZonePtr config sb n (be32 slot (diZonePtr i)))

structure InodeCache.Sound (config : Configuration) (sb : Sb) (s : InodeCache) (n : Nat) :
    Prop where
  taken : ZonesTaken config sb s.zmap n
  ptrs : s.All (PtrsOk config sb n)

namespace ZonesTaken

variable {zmap : MapBlocks}

theorem bit_eq_true (Z : ZonesTaken config sb zmap n) (hj : j < 8 * sb.sBlocksize) (hlt : j < n) :
    bit (zmap 0) j = true := by
  cases hb : bit (zmap 0) j with
  | true => rfl
  | false =>
    have := (Z.clear j hj).mp hb
    omega

/-- Taking the next zone. -/
theorem next (Z : ZonesTaken config sb zmap n) (hn : n < config.numZones)
    (hfit : sb.zoneStart config n < 2 ^ 31) :
    ZonesTaken config sb (Function.update zmap 0 (minixSetBit n (zmap 0))) (n + 1) := by
  refine ⟨by have := Z.ge; omega, hn, ?_, ?_⟩
  · intro i hi
    rw [Function.update_self, minixSetBit, bit_setBit]
    by_cases heq : i = n
    · rw [if_pos heq]
      constructor
      · intro h
        cases h
      · omega
    · rw [if_neg heq, Z.clear i hi]
      omega
  · intro j hj
    rcases Nat.lt_or_eq_of_le (Nat.le_of_lt_succ hj) with hlt | rfl
    · exact Z.fit j hlt
    · exact hfit

variable (R : sb.Reads config) (H : config.Accepted)
include R H

theorem lt_bits (hj : j < config.numZones) : j < 8 * sb.sBlocksize := by
  have := H.numZones_le
  rw [R.blocksize]
  omega

/-- The first zero bit is the next zone. -/
theorem firstZero_eq (Z : ZonesTaken config sb zmap n) (hn : n < config.numZones) :
    minixFindFirstZeroBit (zmap 0) (8 * sb.sBlocksize) = n := by
  have hbits := lt_bits R H hn
  have hclear : bit (zmap 0) n = false := (Z.clear n hbits).mpr ⟨Nat.le_refl n, hn⟩
  have hlt := minixFindFirstZeroBit_of_clear hbits hclear
  have hge := ((Z.clear _ hlt).mp (minixFindFirstZeroBit_lt hlt)).1
  rcases Nat.lt_or_eq_of_le hge with hgt | heq
  · cases hclear.symm.trans (bit_before_firstZero hgt)
  · exact heq.symm

omit R H in
theorem lt_of_firstZero (Z : ZonesTaken config sb zmap n)
    (h : minixFindFirstZeroBit (zmap 0) (8 * sb.sBlocksize) < 8 * sb.sBlocksize) :
    n < config.numZones := by
  have := (Z.clear _ h).mp (minixFindFirstZeroBit_lt h)
  omega

theorem freeZone_iff (Z : ZonesTaken config sb zmap n) :
    sb.FreeZone config zmap ↔ n < config.numZones ∧ sb.zoneStart config n < 2 ^ 31 := by
  constructor
  · rintro ⟨hlt, hfit⟩
    have hn := Z.lt_of_firstZero hlt
    rw [Z.firstZero_eq R H hn] at hfit
    exact ⟨hn, hfit⟩
  · rintro ⟨hn, hfit⟩
    rw [Sb.FreeZone, Z.firstZero_eq R H hn]
    exact ⟨lt_bits R H hn, hfit⟩

end ZonesTaken

section
variable (R : sb.Reads config) (H : config.Accepted) {zmap : MapBlocks} {inode : AufsInode}
include R H

omit R in
theorem ZonePtr.lt (Z : ZonesTaken config sb zmap n) (h : ZonePtr config sb n z) : z < 2 ^ 31 := by
  rcases h with rfl | rfl | ⟨j, -, hlt, rfl⟩
  · decide
  · have := H.blocksPerZone_le
    rw [H.rootBlock_eq]
    omega
  · exact Z.fit j hlt

/-- A mapping that has a zone or can take one. -/
theorem getBlock_sound (Z : ZonesTaken config sb zmap n)
    (hptr : ∀ i, ZonePtr config sb n (inode.aiZonePtr i))
    (hidx : iblock / config.blocksPerZone < ZONE_PTR_IN_INODE_NUM)
    (hok : config.HasZone inode iblock ∨ sb.FreeZone config zmap) (behind : Nat → Nat)
    (create : Bool) :
    ∃ n' z, n ≤ n' ∧
      ZonesTaken config sb (aufsGetBlock sb zmap inode behind iblock sb.sBlocksize create).zmap n' ∧
      (∀ i, ZonePtr config sb n'
        ((aufsGetBlock sb zmap inode behind iblock sb.sBlocksize create).inode.aiZonePtr i)) ∧
      (aufsGetBlock sb zmap inode behind iblock sb.sBlocksize create).ret =
        .ok (iblock % config.blocksPerZone + z) ∧ z ≠ 0 ∧ ZonePtr config sb n' z := by
  have hmod := Nat.mod_lt iblock H.blocksPerZone_pos
  have hle := H.blocksPerZone_le
  rcases R.getBlock_cases H hidx zmap inode behind create with
    ⟨hhas, heq⟩ | ⟨hno, hfull, -⟩ | ⟨j, hj, hfirst, hno, heq⟩
  · obtain ⟨_, hne⟩ := hhas
    have hlt := (hptr ⟨_, hidx⟩).lt H Z
    rw [heq]
    refine ⟨n, _, Nat.le_refl n, Z, hptr, ?_, hne, hptr _⟩
    rw [u64_of_lt (by omega)]
  · have hfree := (hok.resolve_left hno).1
    cases (minixFindFirstZeroBit_lt hfree).symm.trans (hfull _ hfree)
  · obtain ⟨hn, hfit⟩ := (Z.freeZone_iff R H).mp (hok.resolve_left hno)
    obtain rfl : j = n := hfirst.trans (Z.firstZero_eq R H hn)
    have hnew : ZonePtr config sb (j + 1) (sb.zoneStart config j) :=
      .inr (.inr ⟨j, Z.ge, Nat.lt_succ_self j, rfl⟩)
    rw [heq, R.zonePtr_eq H hj hfit]
    refine ⟨j + 1, _, Nat.le_succ j, Z.next hn hfit, ?_, ?_, ?_, hnew⟩
    · intro i
      by_cases hi : i = ⟨_, hidx⟩
      · rw [hi, AufsInode.setZonePtr_self]
        exact hnew
      · rw [AufsInode.setZonePtr_of_ne _ _ _ hi]
        exact (hptr i).mono (Nat.le_succ j)
    · rw [u64_of_lt (by omega)]
    · have := (R.dataBase_ge H).1
      unfold Sb.zoneStart
      omega

omit R H in
theorem PtrsOk.change (h : PtrsOk config sb n inode raw) (hc : DirtyChange inode inode') :
    PtrsOk config sb n inode' raw := by
  rcases hc with rfl | ⟨hdirty, hptr, -⟩
  · exact h
  · refine ⟨by rw [hptr]; exact h.1, fun hclean => ?_⟩
    cases hdirty.symm.trans hclean

omit R H in
theorem PtrsOk.mono (h : PtrsOk config sb n inode raw) (hle : n ≤ n') :
    PtrsOk config sb n' inode raw :=
  ⟨fun i => (h.1 i).mono hle, fun hclean i => (h.2 hclean i).mono hle⟩

variable {s s' : InodeCache}

/-- A step that maps a block, whatever else it does to the inode. -/
theorem InodeCache.Sound.mapped (S : s.Sound config sb n) (hi : s.inodes ino = some inode)
    (hidx : iblock / config.blocksPerZone < ZONE_PTR_IN_INODE_NUM)
    (hok : config.HasZone inode iblock ∨ sb.FreeZone config s.zmap) (behind : Nat → Nat)
    (create : Bool) {inode' : AufsInode}
    (hptr : inode'.aiZonePtr =
      (aufsGetBlock sb s.zmap inode behind iblock sb.sBlocksize create).inode.aiZonePtr)
    (hdirty : inode'.iDirty = inode.iDirty ∨ inode'.iDirty = true) :
    ∃ n', (s.put ino inode'
      (aufsGetBlock sb s.zmap inode behind iblock sb.sBlocksize create).zmap).Sound
      config sb n' := by
  have hold := S.ptrs ino inode hi
  obtain ⟨n', z, hle, Z', hptrs, -⟩ := getBlock_sound R H S.taken hold.1 hidx hok behind create
  refine ⟨n', Z', (S.ptrs.mono fun _ _ h => h.mono hle).put ⟨?_, fun hclean => ?_⟩⟩
  · rw [hptr]
    exact hptrs
  · rcases hdirty with hsame | hset
    · exact fun i => (hold.2 (hsame.symm.trans hclean) i).mono hle
    · cases hset.symm.trans hclean

theorem CacheStep.sound (S : s.Sound config sb n) (hs : CacheStep sb s op o s')
    (hok : s.MapsOk config sb op) : ∃ n', s'.Sound config sb n' := by
  cases hs with
  | @newInode task leftover dir mode inode imap hnew =>
    obtain ⟨new, j, -, -, -, -, -, rfl⟩ := aufsNewInode_ok R.inodeMapBlocks hnew
    have hptrs : (s.put j (initInode task new dir mode j) s.zmap).All (PtrsOk config sb n) :=
      S.ptrs.put ⟨fun _ => .inl rfl, nofun⟩
    exact ⟨n, S.taken, hptrs⟩
  | noInode hnew => exact ⟨n, S.taken, S.ptrs⟩
  | @getBlock ino iblock create behind inode hi hidx =>
    rw [R.zoneIdx_eq] at hidx
    obtain ⟨ptr, hinode⟩ := aufsGetBlock_inode sb s.zmap inode behind iblock sb.sBlocksize create
    refine S.mapped R H hi hidx (hok inode iblock ?_) behind create rfl (.inl (by rw [hinode]))
    rw [InodeCache.mapping, hi]
    rfl
  | writeEnd hi hle =>
    exact ⟨n, S.taken, S.ptrs.put ((S.ptrs _ _ hi).change (genericWriteEnd_change hle))⟩
  | @addLink ino order env content name child inode hi hidx =>
    simp only [R.zoneIdx_eq] at hidx
    rcases R.minixAddLink_inode H hidx s.zmap child with
      ⟨-, hdir, hzmap⟩ | ⟨pos, hpos, hzmap, hptr, hrest⟩
    · rw [hdir, hzmap]
      exact ⟨n, S.taken, S.ptrs.put (S.ptrs _ _ hi)⟩
    · rw [hzmap]
      refine S.mapped R H hi (hidx pos hpos) (hok inode _ ?_) env.behind true hptr ?_
      · simp only [InodeCache.mapping, hi, Option.bind_eq_bind, Option.bind_some, hpos]
        rfl
      · rcases hrest with ⟨-, hdirty, -⟩ | ⟨-, hdirty, -⟩
        · exact .inl hdirty
        · exact .inr hdirty
  | setattr hi =>
    exact ⟨n, S.taken, S.ptrs.put ((S.ptrs _ _ hi).change (minixSetattr_change ..))⟩
  | touch hi =>
    exact ⟨n, S.taken, S.ptrs.put ((S.ptrs _ _ hi).change (.inr ⟨rfl, rfl, .inl rfl⟩))⟩
  | writeInode hi hdirty =>
    have hold := (S.ptrs _ _ hi).1
    refine ⟨n, S.taken, S.ptrs.writeInode ⟨hold, fun _ i => ?_⟩⟩
    rw [be32_update_zonePtr, Nat.mod_eq_of_lt (Nat.lt_trans ((hold i).lt H S.taken) (by decide))]
    exact hold i
  | reload hi hclean hget =>
    rw [aufsInodeGet_ok hget]
    have hslot := (S.ptrs _ _ hi).2 hclean
    exact ⟨n, S.taken, S.ptrs.put ⟨hslot, fun _ => hslot⟩⟩
  | gone => exact ⟨n, S.taken, S.ptrs.evict⟩

theorem InodeCache.Mounts.sound {image : Image} {env : MkfsEnv} (hf : image.Formatted config env)
    (hs : s.Mounts sb image) : s.Sound config sb 2 := by
  obtain ⟨leftover, inode, hget, hinodes⟩ := hs.inodes
  obtain ⟨root, hroot, his⟩ := aufsInodeGet_root H R hf leftover
  obtain rfl : root = inode := Except.ok.inj (hroot.symm.trans hget)
  have h3 := H.three_lt
  have hmap := hf.zoneMap
  rw [← R.blocksize, Nat.mul_comm] at hmap
  refine ⟨⟨Nat.le_refl 2, by omega, ?_, ?_⟩, ?_⟩
  · intro i hi
    rw [hs.zmap, minixSetBit, bit_setBit]
    by_cases h0 : i = 0
    · rw [if_pos h0]
      constructor
      · intro h
        cases h
      · omega
    · rw [if_neg h0]
      exact hmap i hi
  · intro j hj
    have := R.dataBase_lt H
    have := H.blocksPerZone_le
    have hmul : j * config.blocksPerZone ≤ 1 * config.blocksPerZone :=
      Nat.mul_le_mul_right _ (by omega)
    unfold Sb.zoneStart
    omega
  · intro ino inode hi
    have hptr : ∀ i, ZonePtr config sb 2 (root.aiZonePtr i) := by
      intro i
      rw [his.zone]
      split
      · exact .inr (.inl rfl)
      · exact .inl rfl
    simp only [hinodes] at hi
    split at hi
    case isTrue heq =>
      cases hi
      subst heq
      refine ⟨hptr, fun _ i => ?_⟩
      rw [hs.slot]
      have := hptr i
      rwa [aufsInodeGet_ok hget] at this
    case isFalse => cases hi

/-- Every run of steps that find a zone keeps the invariant. -/
theorem CacheStep.run_sound {s₀ : InodeCache} (S₀ : s₀.Sound config sb n₀)
    (t : Trace (fun s op o s' => CacheStep sb s op o s' ∧ s.MapsOk config sb op) s₀ hist s) :
    ∃ n, s.Sound config sb n := by
  induction t with
  | nil => exact ⟨n₀, S₀⟩
  | snoc _ hs ih =>
    obtain ⟨n, S⟩ := ih
    exact hs.1.sound R H S hs.2

/-! ## The mapped block -/

theorem ZonePtr.dataBlock (Z : ZonesTaken config sb zmap n) (hz : ZonePtr config sb n z)
    (h0 : z ≠ 0) (hr : r < config.blocksPerZone) :
    DataBlock config sb zmap (r + z) ∧ config.metadataBlocks ≤ r + z := by
  have hmeta := H.metadataBlocks_le
  rcases hz with h | rfl | ⟨j, h2, hlt, rfl⟩
  · exact absurd h h0
  · have hone : bit (zmap 0) 1 = true :=
      Z.bit_eq_true (ZonesTaken.lt_bits R H (by have := H.three_lt; omega)) (by have := Z.ge; omega)
    refine ⟨.inr ⟨hone, Nat.le_add_left .., by omega⟩, ?_⟩
    rw [H.rootBlock_eq, ← Nat.add_assoc]
    exact Nat.le_trans hmeta (Nat.le_trans (by decide) (Nat.le_add_left 1024 _))
  · have hj : j < config.numZones := Nat.lt_of_lt_of_le hlt Z.le
    refine ⟨.inl ⟨j, h2, hj, Z.bit_eq_true (ZonesTaken.lt_bits R H hj) hlt, by omega, by omega⟩, ?_⟩
    have := (R.dataBase_ge H).1
    unfold Sb.zoneStart
    omega

/-- The first zone whose number does not fit lands past every block of the device. -/
theorem overflow_not_dataBlock (Z : ZonesTaken config sb zmap n) (hn : n < config.numZones)
    (hfit : ¬sb.zoneStart config n < 2 ^ 31) (hr : r < config.blocksPerZone) (zmap' : MapBlocks) :
    ¬DataBlock config sb zmap' (u64 (r + u64OfInt (sb.sbi.zoneBlock n))) := by
  have hle := H.blocksPerZone_le
  have hbase := R.dataBase_lt H
  have hnz := H.numZones_le
  have hbs := H.blockSize_cases
  have h2 := Z.ge
  have hprev := Z.fit (n - 1) (by omega)
  have hstep : sb.zoneStart config n = sb.zoneStart config (n - 1) + config.blocksPerZone := by
    have : n * config.blocksPerZone = (n - 1) * config.blocksPerZone + config.blocksPerZone := by
      rw [← Nat.succ_mul]
      congr 1
      omega
    unfold Sb.zoneStart
    omega
  have hblock : sb.sbi.zoneBlock n = (sb.zoneStart config n : Nat) - 2 ^ 32 := by
    rw [R.zoneBlock_eq H (by omega)]
    change i32 ((sb.zoneStart config n : Nat) : Int) = _
    exact i32_of_ge (by omega) (by omega)
  have hval : u64OfInt (sb.sbi.zoneBlock n) = 2 ^ 64 - 2 ^ 32 + sb.zoneStart config n := by
    rw [hblock]
    unfold u64OfInt
    omega
  rw [hval, u64_of_lt (by omega)]
  rintro (⟨j, -, hj, -, -, hlt⟩ | ⟨-, -, hlt⟩)
  · have hmul : j * config.blocksPerZone ≤ 2 ^ 15 * 2 ^ 19 := Nat.mul_le_mul (by omega) hle
    unfold Sb.zoneStart at *
    omega
  · rw [H.rootBlock_eq] at hlt
    omega

/-- A call in a sound state does what is asked exactly when the file block has a zone or can take
one. -/
theorem InodeCache.Sound.mapsData_iff (S : s.Sound config sb n) (hi : s.inodes ino = some inode)
    (hidx : iblock / config.blocksPerZone < ZONE_PTR_IN_INODE_NUM) (behind : Nat → Nat)
    (create : Bool) :
    MapsData config sb s.zmap inode iblock
        (aufsGetBlock sb s.zmap inode behind iblock sb.sBlocksize create) ↔
      config.HasZone inode iblock ∨ sb.FreeZone config s.zmap := by
  have hmod := Nat.mod_lt iblock H.blocksPerZone_pos
  constructor
  · intro hdata
    by_contra hno
    obtain ⟨hno, hfree⟩ := not_or.mp hno
    rcases R.getBlock_cases H hidx s.zmap inode behind create with
      ⟨hhas, -⟩ | ⟨-, hfull, heq⟩ | ⟨j, hj, hfirst, -, heq⟩
    · exact hno hhas
    · obtain ⟨e, he⟩ := hdata.full hno hfull
      rw [heq] at he
      cases he
    · rw [hfirst] at hj
      have hn := S.taken.lt_of_firstZero hj
      rw [S.taken.firstZero_eq R H hn] at hfirst
      have hfit : ¬sb.zoneStart config n < 2 ^ 31 :=
        fun hlt => hfree ((S.taken.freeZone_iff R H).mpr ⟨hn, hlt⟩)
      have hblock := (hdata.data _ (by rw [heq])).1
      rw [hfirst] at hblock
      exact overflow_not_dataBlock R H S.taken hn hfit hmod _ hblock
  · intro hok
    obtain ⟨n', z, -, Z', -, hret, h0, hz⟩ :=
      getBlock_sound R H S.taken (S.ptrs ino inode hi).1 hidx hok behind create
    constructor
    · intro b hb
      cases hret.symm.trans hb
      exact hz.dataBlock R H Z' h0 hmod
    · intro hno hfull
      have hfree := (hok.resolve_left hno).1
      cases (minixFindFirstZeroBit_lt hfree).symm.trans (hfull _ hfree)

end

/-- In every run in which each mapped file block had a zone or could take one, the next call does
what is asked of it exactly when its file block has a zone or can take one. -/
theorem mapped_blocks_iff {deviceSize : String → Nat} {argv : List String} {env : MkfsEnv}
    {fuel : Nat} {dev : Device} {image : Image} {hist : List (CacheOp × Unit)}
    {s₀ s : InodeCache} (hargs : parseArgs deviceSize argv = .ok config)
    (himage : mkfs env fuel config dev = some image)
    (hsb : sb = aufsFillSb image.superBlock) (hmount : s₀.Mounts sb image)
    (t : Trace (fun s op o s' => CacheStep sb s op o s' ∧ s.MapsOk config sb op) s₀ hist s) :
    ∀ ino inode iblock behind create, s.inodes ino = some inode →
      sb.zoneIdx iblock < ZONE_PTR_IN_INODE_NUM →
      (MapsData config sb s.zmap inode iblock
          (aufsGetBlock sb s.zmap inode behind iblock sb.sBlocksize create) ↔
        config.HasZone inode iblock ∨ sb.FreeZone config s.zmap) := by
  intro ino inode iblock behind create hi hidx
  have H := accepted_of_parseArgs hargs
  have hf := mkfs_formatted H himage
  have R : sb.Reads config := hsb ▸ aufsFillSb_reads H hf
  obtain ⟨n, S⟩ := CacheStep.run_sound R H (hmount.sound R H hf) t
  rw [R.zoneIdx_eq] at hidx
  exact S.mapsData_iff R H hi hidx behind create

/-! ## A run that fills the zone map -/

section
variable (R : sb.Reads config) (H : config.Accepted) {s : InodeCache} {inode : AufsInode}
include R H

/-- Mapping a file block without a zone takes the next one. -/
theorem take_zone (Z : ZonesTaken config sb s.zmap n) (hn : n < config.numZones)
    (hfit : sb.zoneStart config n < 2 ^ 31) (hi : s.inodes ino = some inode)
    (hidx : iblock / config.blocksPerZone < ZONE_PTR_IN_INODE_NUM)
    (hptr : inode.aiZonePtr ⟨_, hidx⟩ = 0) :
    ∃ s', CacheStep sb s (.getBlock ino iblock true fun _ => 0) () s' ∧
      s.MapsOk config sb (.getBlock ino iblock true fun _ => 0) ∧
      ZonesTaken config sb s'.zmap (n + 1) ∧
      s'.inodes ino = some (inode.setZonePtr ⟨_, hidx⟩ (sb.zoneStart config n)) := by
  have hno : ¬config.HasZone inode iblock := fun ⟨_, h⟩ => h hptr
  have hidx' : sb.zoneIdx iblock < ZONE_PTR_IN_INODE_NUM := by
    rw [R.zoneIdx_eq]
    exact hidx
  have hfree := (Z.freeZone_iff R H).mpr ⟨hn, hfit⟩
  refine ⟨_, .getBlock hi hidx', fun _ _ _ => .inr hfree, ?_⟩
  rcases R.getBlock_cases H hidx s.zmap inode (fun _ => 0) true with
    ⟨hhas, -⟩ | ⟨-, hfull, -⟩ | ⟨j, hj, hfirst, -, heq⟩
  · exact absurd hhas hno
  · cases (minixFindFirstZeroBit_lt hfree.1).symm.trans (hfull _ hfree.1)
  · obtain rfl : j = n := hfirst.trans (Z.firstZero_eq R H hn)
    rw [heq, R.zonePtr_eq H hj hfit]
    exact ⟨Z.next hn hfit, Function.update_self ..⟩

omit R H in
theorem ZonesTaken.full {zmap : MapBlocks} (Z : ZonesTaken config sb zmap config.numZones) :
    sb.MapFull zmap := by
  intro j hj
  cases hb : bit (zmap 0) j with
  | true => rfl
  | false =>
    have := (Z.clear j hj).mp hb
    omega

end

/-- `mkfs.aufs -b 4 /dev/nvme0n1`, with the default zone size. -/
def fourZones : Configuration :=
  { eightZones with numZones := 4 }

theorem fourZones_parsed :
    parseArgs (fun _ => 2 ^ 20) ["-b", "4", "/dev/nvme0n1"] = .ok fourZones := by
  decide

/-- Creating a file. -/
def newFile : CacheOp := .newInode ⟨0, 0, 0⟩ (fun _ => 0) (newInode fun _ => 0) S_IFREG

/-- The first file that is created on an image of `fourZones` is inode 2, without zones. -/
theorem newFile_step :
    ∃ image s₀ s inode, mkfs rootEnv 1 fourZones (blankDevice (2 ^ 20)) = some image ∧
      image.Formatted fourZones rootEnv ∧
      InodeCache.Mounts (aufsFillSb image.superBlock) image s₀ ∧
      CacheStep (aufsFillSb image.superBlock) s₀ newFile () s ∧
      s.zmap = s₀.zmap ∧ s.inodes 2 = some inode ∧ inode.iDirty = true ∧
      ∀ i, inode.aiZonePtr i = 0 := by
  have H := accepted_of_parseArgs fourZones_parsed
  obtain ⟨image, himage, hf, R⟩ := exists_image H rootEnv (blankDevice (2 ^ 20))
  obtain ⟨root, hget, -⟩ := aufsInodeGet_root H R hf (fun _ => 0)
  let s₀ : InodeCache :=
    { zmap := fun _ => minixSetBit 0 image.zoneMap
      imap := fun _ => minixSetBit 0 image.inodeMap
      inodes := fun ino =>
        if ino = (aufsFillSb image.superBlock).sbi.asbRootInode then some root else none
      slot := fun _ => image.rootSlot (aufsFillSb image.superBlock) }
  have hmount : s₀.Mounts (aufsFillSb image.superBlock) image := ⟨rfl, rfl, ⟨_, _, hget, rfl⟩, rfl⟩
  have hnew := R.newInode_mounted H hf ⟨0, 0, 0⟩ (newInode fun _ => 0) (newInode fun _ => 0) S_IFREG
  refine ⟨image, s₀, _, initInode ⟨0, 0, 0⟩ (newInode fun _ => 0) (newInode fun _ => 0) S_IFREG 2,
    himage, hf, hmount, .newInode hnew, rfl, ?_, rfl, fun _ => rfl⟩
  change Function.update s₀.inodes 2 _ 2 = _
  exact Function.update_self ..

theorem fourZones_fit (R : sb.Reads fourZones) (hj : j < 4) :
    sb.zoneStart fourZones j < 2 ^ 31 := by
  have hbase : sb.sbi.dataBase = 1024 := R.dataBase_eq (accepted_of_parseArgs fourZones_parsed)
  change j * 4 + sb.sbi.dataBase < 2 ^ 31
  omega

/-- The good steps that leave no free zone: a new file, and a block in its first two zones. -/
def fillOps : List (CacheOp × Unit) :=
  [(newFile, ()), (.getBlock 2 0 true fun _ => 0, ()), (.getBlock 2 4 true fun _ => 0, ())]

theorem fillOps_run :
    ∃ image s₀ s inode, mkfs rootEnv 1 fourZones (blankDevice (2 ^ 20)) = some image ∧
      InodeCache.Mounts (aufsFillSb image.superBlock) image s₀ ∧
      Trace (fun s op o s' => CacheStep (aufsFillSb image.superBlock) s op o s' ∧
        s.MapsOk fourZones (aufsFillSb image.superBlock) op) s₀ fillOps s ∧
      s.inodes 2 = some inode ∧ (aufsFillSb image.superBlock).MapFull s.zmap ∧
      fourZones.HasZone inode 0 ∧ ¬fourZones.HasZone inode 8 := by
  obtain ⟨image, s₀, s₁, inode, himage, hf, hmount, hs₁, hz₁, hi₁, -, hptr⟩ := newFile_step
  have H := accepted_of_parseArgs fourZones_parsed
  have R := aufsFillSb_reads H hf
  have hfit := fun j => fourZones_fit (j := j) R
  have Z₁ : ZonesTaken fourZones (aufsFillSb image.superBlock) s₁.zmap 2 :=
    hz₁ ▸ (hmount.sound R H hf).taken
  have hidx0 : 0 / fourZones.blocksPerZone < ZONE_PTR_IN_INODE_NUM := by decide
  have hidx1 : 4 / fourZones.blocksPerZone < ZONE_PTR_IN_INODE_NUM := by decide
  obtain ⟨s₂, hs₂, hok₂, Z₂, hi₂⟩ :=
    take_zone R H Z₁ (by decide) (hfit 2 (by decide)) hi₁ hidx0 (hptr _)
  obtain ⟨s₃, hs₃, hok₃, Z₃, hi₃⟩ :=
    take_zone R H Z₂ (by decide) (hfit 3 (by decide)) hi₂ hidx1 (hptr _)
  have hok₁ : s₀.MapsOk fourZones (aufsFillSb image.superBlock) newFile := nofun
  refine ⟨image, s₀, s₃, _, himage, hmount,
    ((Trace.single ⟨hs₁, hok₁⟩).snoc ⟨hs₂, hok₂⟩).snoc ⟨hs₃, hok₃⟩, hi₃, Z₃.full, ?_, ?_⟩
  · refine ⟨hidx0, ?_⟩
    have hne : (⟨_, hidx0⟩ : Fin ZONE_PTR_IN_INODE_NUM) ≠ ⟨_, hidx1⟩ := fun h => by cases h
    rw [AufsInode.setZonePtr_of_ne _ _ _ hne, AufsInode.setZonePtr_self]
    exact Nat.ne_of_gt (Nat.add_pos_left (by decide) _)
  · rintro ⟨h, hne⟩
    exact hne (hptr ⟨2, h⟩)

/-- With the zone map full, block 8 of the new file, the first of its third zone, is mapped onto
block 0: the super block. -/
theorem mapped_onto_superBlock :
    ∃ image s₀ s inode, mkfs rootEnv 1 fourZones (blankDevice (2 ^ 20)) = some image ∧
      InodeCache.Mounts (aufsFillSb image.superBlock) image s₀ ∧
      Trace (CacheStep (aufsFillSb image.superBlock)) s₀ fillOps s ∧
      s.inodes 2 = some inode ∧
      (aufsFillSb image.superBlock).zoneIdx 8 < ZONE_PTR_IN_INODE_NUM ∧
      (aufsFillSb image.superBlock).MapFull s.zmap ∧
      (aufsGetBlock (aufsFillSb image.superBlock) s.zmap inode (fun _ => 0) 8
        (aufsFillSb image.superBlock).sBlocksize true).ret = .ok 0 ∧
      ¬MapsData fourZones (aufsFillSb image.superBlock) s.zmap inode 8
        (aufsGetBlock (aufsFillSb image.superBlock) s.zmap inode (fun _ => 0) 8
          (aufsFillSb image.superBlock).sBlocksize true) := by
  obtain ⟨image, s₀, s, inode, himage, hmount, t, hi, hfull, -, hno⟩ := fillOps_run
  have H := accepted_of_parseArgs fourZones_parsed
  have R := aufsFillSb_reads H (mkfs_formatted H himage)
  have hidx : 8 / fourZones.blocksPerZone < ZONE_PTR_IN_INODE_NUM := by decide
  have hret : (aufsGetBlock (aufsFillSb image.superBlock) s.zmap inode (fun _ => 0) 8
      (aufsFillSb image.superBlock).sBlocksize true).ret = .ok 0 := by
    rcases R.getBlock_cases H hidx s.zmap inode (fun _ => 0) true with
      ⟨hhas, -⟩ | ⟨-, -, heq⟩ | ⟨j, hj, hfirst, -⟩
    · exact absurd hhas hno
    · rw [heq]
      rfl
    · rw [hfirst] at hj
      cases (minixFindFirstZeroBit_lt hj).symm.trans (hfull _ hj)
  refine ⟨image, s₀, s, inode, himage, hmount, t.mono And.left, hi, ?_, hfull, hret,
    fun hdata => ?_⟩
  · rw [R.zoneIdx_eq]
    exact hidx
  · obtain ⟨e, he⟩ := hdata.full hno hfull
    cases hret.symm.trans he

/-- In the same state block 0 of the file is where it should be, and block 8 is not. -/
theorem mapped_blocks_fourZones :
    ∃ image, ∃ s : InodeCache, ∃ inode,
      mkfs rootEnv 1 fourZones (blankDevice (2 ^ 20)) = some image ∧
      s.inodes 2 = some inode ∧
      MapsData fourZones (aufsFillSb image.superBlock) s.zmap inode 0
        (aufsGetBlock (aufsFillSb image.superBlock) s.zmap inode (fun _ => 0) 0
          (aufsFillSb image.superBlock).sBlocksize true) ∧
      ¬MapsData fourZones (aufsFillSb image.superBlock) s.zmap inode 8
        (aufsGetBlock (aufsFillSb image.superBlock) s.zmap inode (fun _ => 0) 8
          (aufsFillSb image.superBlock).sBlocksize true) := by
  obtain ⟨image, s₀, s, inode, himage, hmount, t, hi, hfull, hhas, hno⟩ := fillOps_run
  have H := accepted_of_parseArgs fourZones_parsed
  have R := aufsFillSb_reads H (mkfs_formatted H himage)
  have hiff := mapped_blocks_iff fourZones_parsed himage rfl hmount t 2 inode
  have hidx : ∀ iblock < 36,
      (aufsFillSb image.superBlock).zoneIdx iblock < ZONE_PTR_IN_INODE_NUM := by
    intro iblock hlt
    rw [R.zoneIdx_eq]
    change iblock / 4 < 9
    omega
  have hfree : ¬(aufsFillSb image.superBlock).FreeZone fourZones s.zmap := fun hfree => by
    cases (minixFindFirstZeroBit_lt hfree.1).symm.trans (hfull _ hfree.1)
  refine ⟨image, s, inode, himage, hi, ?_, fun hdata => ?_⟩
  · exact (hiff 0 _ true hi (hidx 0 (by decide))).mpr (.inl hhas)
  · exact ((hiff 8 _ true hi (hidx 8 (by decide))).mp hdata).elim hno hfree

end Aufs
