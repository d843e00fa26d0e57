import Aufs.Kern.Dir
import Aufs.Kern.File
import Aufs.Lib.PartialMap
import Aufs.Lib.Trace
import Aufs.Verify.GetBlock

/-! The inodes of a mounted file system in memory, each beside its slot on disk, and the steps that
touch them: `aufs_new_inode`, `aufs_get_block`, `generic_write_end`, `minix_add_link`,
`minix_setattr`, `mark_inode_dirty` after a change of a time, `minix_write_inode`, and eviction
followed by `aufs_inode_get`. `minix_make_empty` is a mapping and then a write end. -/

namespace Aufs
open Bytes Word

variable {config : Configuration} {sb : Sb}

/-- The maps, the inodes in memory, and the slots on disk. -/
structure InodeCache where
  zmap : MapBlocks
  imap : MapBlocks
  inodes : Nat → Option AufsInode
  slot : Nat → Mem

inductive CacheOp where
  | newInode (task : Task) (leftover : Fin ZONE_PTR_IN_INODE_NUM → Nat) (dir : AufsInode)
    (mode : Nat)
  | getBlock (ino iblock : Nat) (create : Bool) (behind : Nat → Nat)
  | writeEnd (ino pos copied : Nat)
  | addLink (ino : Nat) (order : ByteOrder) (env : DirEnv) (content : Mem) (name : List Byte)
    (child : Nat)
  | setattr (ino : Nat) (prepared : Except Errno Unit) (attr : Iattr)
  | touch (ino ctime : Nat)
  | writeInode (ino : Nat)
  | reload (ino : Nat) (leftover : Fin ZONE_PTR_IN_INODE_NUM → Nat)

/-- The cache after a change of one inode and of the zone map. -/
def InodeCache.put (s : InodeCache) (ino : Nat) (inode : AufsInode) (zmap : MapBlocks) :
    InodeCache :=
  { s with zmap, inodes := Function.update s.inodes ino (some inode) }

/-- The offset at which `minix_add_link` prepares a chunk, if it gets there. -/
def addLinkPos (order : ByteOrder) (env : DirEnv) (dir : AufsInode) (content : Mem)
    (name : List Byte) : Option Nat :=
  match minixAddLinkLoop order env dir content name (dirPages dir + 1) 0 with
  | .gotIt pos => some pos
  | _ => none

/-- File blocks have a zone pointer, and the VFS keeps writes within `s_maxbytes`. -/
inductive CacheStep (sb : Sb) : InodeCache → CacheOp → Unit → InodeCache → Prop
  | newInode {s task leftover dir mode inode imap} :
    aufsNewInode task sb s.imap (some (newInode leftover)) dir mode = (.ok inode, imap) →
    CacheStep sb s (.newInode task leftover dir mode) ()
      { s with imap, inodes := Function.update s.inodes inode.iIno (some inode) }
  | noInode {s task leftover dir mode e imap} :
    aufsNewInode task sb s.imap (some (newInode leftover)) dir mode = (.error e, imap) →
    CacheStep sb s (.newInode task leftover dir mode) () { s with imap }
  | getBlock {s ino iblock create behind inode} :
    s.inodes ino = some inode → sb.zoneIdx iblock < ZONE_PTR_IN_INODE_NUM →
    CacheStep sb s (.getBlock ino iblock create behind) ()
      (s.put ino (aufsGetBlock sb s.zmap inode behind iblock sb.sBlocksize create).inode
        (aufsGetBlock sb s.zmap inode behind iblock sb.sBlocksize create).zmap)
  | writeEnd {s ino pos copied inode} :
    s.inodes ino = some inode → pos + copied ≤ MAX_NON_LFS →
    CacheStep sb s (.writeEnd ino pos copied) ()
      (s.put ino (genericWriteEnd inode pos copied) s.zmap)
  | addLink {s ino order env content name child inode} :
    s.inodes ino = some inode →
    (∀ pos ∈ addLinkPos order env inode content name,
      sb.zoneIdx (pos / sb.sBlocksize) < ZONE_PTR_IN_INODE_NUM) →
    CacheStep sb s (.addLink ino order env content name child) ()
      (s.put ino (minixAddLink order sb env s.zmap inode content name child).dir
        (minixAddLink order sb env s.zmap inode content name child).zmap)
  | setattr {s ino prepared attr inode} : s.inodes ino = some inode →
    CacheStep sb s (.setattr ino prepared attr) ()
      (s.put ino (minixSetattr prepared inode attr).2 s.zmap)
  | touch {s ino ctime inode} : s.inodes ino = some inode →
    CacheStep sb s (.touch ino ctime) ()
      (s.put ino (markInodeDirty { inode with iCtime := ctime }) s.zmap)
  | writeInode {s ids ino inode} : s.inodes ino = some inode → inode.iDirty = true →
    CacheStep sb s (.writeInode ino) ()
      { s.put ino { inode with iDirty := false } s.zmap with
        slot := Function.update s.slot ino (v2MinixUpdateInode ids inode (s.slot ino)) }
  | reload {s ino leftover inode inode'} : s.inodes ino = some inode → inode.iDirty = false →
    aufsInodeGet leftover ino (s.slot ino) = .ok inode' →
    CacheStep sb s (.reload ino leftover) () (s.put ino inode' s.zmap)
  | gone {s ino leftover inode e} : s.inodes ino = some inode → inode.iDirty = false →
    aufsInodeGet leftover ino (s.slot ino) = .error e →
    CacheStep sb s (.reload ino leftover) () { s with inodes := Function.update s.inodes ino none }

/-- The image just mounted, with its root inode loaded. -/
structure InodeCache.Mounts (sb : Sb) (image : Image) (s : InodeCache) : Prop where
  zmap : s.zmap = fun _ => minixSetBit 0 image.zoneMap
  imap : s.imap = fun _ => minixSetBit 0 image.inodeMap
  inodes : ∃ leftover inode,
    aufsInodeGet leftover sb.sbi.asbRootInode (image.rootSlot sb) = .ok inode ∧
    s.inodes = fun ino => if ino = sb.sbi.asbRootInode then some inode else none
  slot : s.slot sb.sbi.asbRootInode = image.rootSlot sb

/-! ## Conditions on a mapping -/

/-- The zone map has a clear bit, and the zone of the lowest one has a block number that fits the
`int` that `aufs_new_zone` returns. -/
def Sb.FreeZone (sb : Sb) (config : Configuration) (zmap : MapBlocks) : Prop :=
  minixFindFirstZeroBit (zmap 0) (8 * sb.sBlocksize) < 8 * sb.sBlocksize ∧
    sb.zoneStart config (minixFindFirstZeroBit (zmap 0) (8 * sb.sBlocksize)) < 2 ^ 31

/-- The zone map has no clear bit. -/
def Sb.MapFull (sb : Sb) (zmap : MapBlocks) : Prop :=
  ∀ j < 8 * sb.sBlocksize, bit (zmap 0) j = true

/-- The file block has a zone already. -/
def Configuration.HasZone (config : Configuration) (inode : AufsInode) (iblock : Nat) : Prop :=
  ∃ h : iblock / config.blocksPerZone < ZONE_PTR_IN_INODE_NUM, inode.aiZonePtr ⟨_, h⟩ ≠ 0

/-- A file block has a zone, or there is none to be had, or the zone of the first zero bit is
taken. -/
theorem Sb.Reads.getBlock_cases (R : sb.Reads config) (H : config.Accepted)
    (hidx : iblock / config.blocksPerZone < ZONE_PTR_IN_INODE_NUM) (zmap : MapBlocks)
    (inode : AufsInode) (behind : Nat → Nat) (create : Bool) :
    (config.HasZone inode iblock ∧
      aufsGetBlock sb zmap inode behind iblock sb.sBlocksize create =
        { ret := .ok (u64 (iblock % config.blocksPerZone + inode.aiZonePtr ⟨_, hidx⟩))
          inode, zmap
          newZone := none }) ∨
    (¬config.HasZone inode iblock ∧ sb.MapFull zmap ∧
      aufsGetBlock sb zmap inode behind iblock sb.sBlocksize create =
        { ret := .ok (iblock % config.blocksPerZone), inode, zmap, newZone := some 0 }) ∨
    ∃ j < 8 * sb.sBlocksize, j = minixFindFirstZeroBit (zmap 0) (8 * sb.sBlocksize) ∧
      ¬config.HasZone inode iblock ∧
      aufsGetBlock sb zmap inode behind iblock sb.sBlocksize create =
        { ret := .ok (u64 (iblock % config.blocksPerZone + u64OfInt (sb.sbi.zoneBlock j)))
          inode := inode.setZonePtr ⟨_, hidx⟩ (u64OfInt (sb.sbi.zoneBlock j))
          zmap := Function.update zmap 0 (minixSetBit j (zmap 0))
          newZone := some (sb.sbi.zoneBlock j) } := by
  by_cases hptr : inode.aiZonePtr ⟨_, hidx⟩ = 0
  · have hno : ¬config.HasZone inode iblock := fun ⟨_, h⟩ => h hptr
    rw [R.getBlock_unmapped H hidx hptr, aufsNewZone_eq R.zoneMapBlocks (R.bits_lt H)]
    by_cases hj : minixFindFirstZeroBit (zmap 0) (8 * sb.sBlocksize) < 8 * sb.sBlocksize
    · simp only [if_pos hj]
      exact .inr (.inr ⟨_, hj, rfl, hno, rfl⟩)
    · simp only [if_neg hj]
      refine .inr (.inl ⟨hno, fun _ hk => minixFindFirstZeroBit_full hj hk, ?_⟩)
      have hzero : u64OfInt 0 = 0 := by decide
      have hself : inode.setZonePtr ⟨_, hidx⟩ 0 = inode := by
        rw [AufsInode.setZonePtr, ← hptr, Function.update_eq_self]
      have hmod : iblock % config.blocksPerZone < 2 ^ 64 := by
        have := Nat.mod_lt iblock H.blocksPerZone_pos
        have := H.blocksPerZone_le
        omega
      simp only [hzero, hself, Nat.add_zero, u64_of_lt hmod]
  · exact .inl ⟨⟨hidx, hptr⟩, R.getBlock_mapped H hidx hptr ..⟩

/-- The inode and the file block that a step maps. -/
def InodeCache.mapping (sb : Sb) (s : InodeCache) : CacheOp → Option (AufsInode × Nat)
  | .getBlock ino iblock _ _ => (s.inodes ino).map (·, iblock)
  | .addLink ino order env content name _ => do
    let inode ← s.inodes ino
    let pos ← addLinkPos order env inode content name
    return (inode, pos / sb.sBlocksize)
  | _ => none

/-- `minix_add_link` maps one block, at the place of the new entry. It marks the directory dirty,
unless the rest of the block cannot be read. -/
theorem Sb.Reads.minixAddLink_inode (R : sb.Reads config) (H : config.Accepted)
    {order : ByteOrder} {env : DirEnv} {dir : AufsInode} {content : Mem} {name : List Byte}
    (hidx : ∀ pos ∈ addLinkPos order env dir content name,
      pos / sb.sBlocksize / config.blocksPerZone < ZONE_PTR_IN_INODE_NUM)
    (zmap : MapBlocks) (child : Nat) :
    (addLinkPos order env dir content name = none ∧
      (minixAddLink order sb env zmap dir content name child).dir = dir ∧
      (minixAddLink order sb env zmap dir content name child).zmap = zmap) ∨
    ∃ pos, addLinkPos order env dir content name = some pos ∧
      (minixAddLink order sb env zmap dir content name child).zmap =
        (aufsGetBlock sb zmap dir env.behind (pos / sb.sBlocksize) sb.sBlocksize true).zmap ∧
      (minixAddLink order sb env zmap dir content name child).dir.aiZonePtr =
        (aufsGetBlock sb zmap dir env.behind (pos / sb.sBlocksize) sb.sBlocksize
          true).inode.aiZonePtr ∧
      ((env.blockRead ≠ .ok () ∧
        (minixAddLink order sb env zmap dir content name child).dir.iDirty = dir.iDirty ∧
        (minixAddLink order sb env zmap dir content name child).dir.iSize = dir.iSize) ∨
      env.blockRead = .ok () ∧
        (minixAddLink order sb env zmap dir content name child).dir.iDirty = true ∧
        (minixAddLink order sb env zmap dir content name child).dir.iSize =
          max dir.iSize (pos + AUFS_DIR_SIZE)) := by
  unfold minixAddLink addLinkPos at *
  cases hscan : minixAddLinkLoop order env dir content name (dirPages dir + 1) 0 with
  | bug => exact .inl ⟨rfl, rfl, rfl⟩
  | out e => exact .inl ⟨rfl, rfl, rfl⟩
  | gotIt pos =>
    rw [hscan] at hidx
    have hidx := hidx pos rfl
    obtain ⟨b, hret⟩ : ∃ b, (aufsGetBlock sb zmap dir env.behind (pos / sb.sBlocksize)
        sb.sBlocksize true).ret = .ok b := by
      rw [R.getBlock_eq H hidx]
      split
      · exact ⟨_, rfl⟩
      · exact ⟨_, rfl⟩
    obtain ⟨ptr, hinode⟩ :=
      aufsGetBlock_inode sb zmap dir env.behind (pos / sb.sBlocksize) sb.sBlocksize true
    refine .inr ⟨pos, rfl, ?_⟩
    cases hread : env.blockRead with
    | error e =>
      simp only [minixPrepareChunk, hret, hread, hinode]
      exact ⟨trivial, trivial, .inl ⟨nofun, trivial, trivial⟩⟩
    | ok u =>
      simp only [minixPrepareChunk, hret, hread, hinode, dirCommitChunk]
      by_cases hgt : pos + AUFS_DIR_SIZE > dir.iSize
      · simp only [if_pos hgt]
        exact ⟨trivial, rfl, .inr ⟨trivial, rfl, (Nat.max_eq_right (Nat.le_of_lt hgt)).symm⟩⟩
      · simp only [if_neg hgt]
        exact ⟨trivial, rfl, .inr ⟨trivial, rfl, (Nat.max_eq_left (Nat.le_of_not_lt hgt)).symm⟩⟩

/-- What a step does to an inode it maps no block of: nothing, or a change that marks it dirty,
keeps its zones and keeps its size within `s_maxbytes`. -/
def DirtyChange (inode inode' : AufsInode) : Prop :=
  inode' = inode ∨ inode'.iDirty = true ∧ inode'.aiZonePtr = inode.aiZonePtr ∧
    (inode'.iSize = inode.iSize ∨ inode'.iSize ≤ MAX_NON_LFS)

theorem genericWriteEnd_change (h : pos + copied ≤ MAX_NON_LFS) :
    DirtyChange inode (genericWriteEnd inode pos copied) := by
  unfold genericWriteEnd
  split
  · exact .inr ⟨rfl, rfl, .inr h⟩
  · exact .inl rfl

theorem minixSetattr_change (prepared : Except Errno Unit) (inode : AufsInode) (attr : Iattr) :
    DirtyChange inode (minixSetattr prepared inode attr).2 := by
  cases prepared with
  | error e => exact .inl rfl
  | ok u =>
    simp only [minixSetattr]
    cases hsize : setattrSize inode attr with
    | error e => exact .inl rfl
    | ok inode' =>
      refine .inr ⟨rfl, ?_⟩
      change inode'.aiZonePtr = _ ∧ (inode'.iSize = _ ∨ inode'.iSize ≤ _)
      rcases setattrSize_cases hsize with rfl | ⟨size, -, hle, rfl⟩
      · exact ⟨rfl, .inl rfl⟩
      · exact ⟨rfl, .inr hle⟩

/-! ## Statements about every inode -/

/-- Every inode in memory and its slot satisfy `P`. -/
def InodeCache.All (P : AufsInode → Mem → Prop) (s : InodeCache) : Prop :=
  ∀ ino inode, s.inodes ino = some inode → P inode (s.slot ino)

namespace InodeCache.All

variable {P Q : AufsInode → Mem → Prop} {s : InodeCache}

theorem mono (h : s.All P) (hle : ∀ inode slot, P inode slot → Q inode slot) : s.All Q :=
  fun ino inode hi => hle _ _ (h ino inode hi)

theorem put {zmap : MapBlocks} (h : s.All P) (hi : P inode (s.slot ino)) :
    (s.put ino inode zmap).All P := by
  intro ino' inode' hinode
  change Function.update s.inodes ino (some inode) ino' = some inode' at hinode
  rcases PartialMap.update_eq_some hinode with ⟨rfl, heq⟩ | ⟨-, hinode⟩
  · cases heq
    exact hi
  · exact h ino' inode' hinode

/-- After a write-back. -/
theorem writeInode {slot : Mem} (h : s.All P) (hi : P inode slot) :
    InodeCache.All P
      { s.put ino inode s.zmap with slot := Function.update s.slot ino slot } := by
  intro ino' inode' hinode
  change Function.update s.inodes ino (some inode) ino' = some inode' at hinode
  change P inode' (Function.update s.slot ino slot ino')
  rcases PartialMap.update_eq_some hinode with ⟨rfl, heq⟩ | ⟨hne, hinode⟩
  · cases heq
    rw [Function.update_self]
    exact hi
  · rw [Function.update_of_ne hne]
    exact h ino' inode' hinode

/-- After an eviction. -/
theorem evict (h : s.All P) :
    InodeCache.All P { s with inodes := Function.update s.inodes ino none } := by
  intro ino' inode' hinode
  change Function.update s.inodes ino none ino' = some inode' at hinode
  rcases PartialMap.update_eq_some hinode with ⟨-, heq⟩ | ⟨-, hinode⟩
  · cases heq
  · exact h ino' inode' hinode

end InodeCache.All
end Aufs
