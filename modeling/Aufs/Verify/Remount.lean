import Aufs.Verify.InodeTable
import Aufs.Verify.PageData

/-! What survives unmounting. Inodes and maps are written back at any time during a run, beside the
data; a device that has everything is mounted again with the same maps, sizes and zone pointers, and
each byte written last is read back from it. -/

namespace Aufs
open Bytes Word

variable {config : Configuration} {sb : Sb} {behind : Nat → Nat}

/-! ## Writing back and mounting again -/

/-- The file system as `fs` mounts it from the device of `s`: nothing is cached, and the files of
`s` have been looked up. -/
def PageCache.remounted (leftover : Fin ZONE_PTR_IN_INODE_NUM → Nat) (s : PageCache)
    (fs : MountedFs) : PageCache where
  fs :=
    { zmap := fun i => ((fs.sZmap[i]?).map Buffer.bData).getD fun _ => 0
      imap := fun i => ((fs.sImap[i]?).map Buffer.bData).getD fun _ => 0
      files := fun ino => (s.fs.files ino).bind fun _ =>
        (s.fs.dev.unbuffered.aufsInodeGet fs.sb true leftover ino).1.toOption
      dev := s.fs.dev }
  cache := fun _ _ => none

/-- Everything is on the device: no block is dirty, and maps and inodes have been written since they
were changed last. -/
structure PageCache.Synced (sb : Sb) (s : PageCache) : Prop where
  pages : ∀ ino iblock buf, s.cache ino iblock = some buf → buf.dirty = false
  zmap : ∀ i < sb.sbi.asbZoneMapBlocks, ∀ k < sb.sBlocksize,
    s.fs.dev.bytes ((1 + i) * sb.sBlocksize + k) = s.fs.zmap i k
  imap : ∀ i < sb.sbi.asbInodeMapBlocks, ∀ k < sb.sBlocksize,
    s.fs.dev.bytes ((1 + sb.sbi.asbZoneMapBlocks + i) * sb.sBlocksize + k) = s.fs.imap i k
  inodes : ∀ ino inode, s.fs.files ino = some inode → ∃ ids, ∀ k < 64,
    s.fs.dev.bytes (slotAddress sb ino + k) = v2MinixUpdateInode ids inode (fun _ => 0) k

inductive DiskOp where
  | page (op : PageOp)
  | writeInode (ino : Nat)
  | writeZmap (i : Nat)
  | writeImap (i : Nat)
  | remount (env : MountEnv) (leftover : Fin ZONE_PTR_IN_INODE_NUM → Nat)

inductive DiskOut where
  | page (out : PageOut)
  | done

/-- What the VFS sees to: new files are regular and stay so, and no write ends past
`s_maxbytes`. -/
def PageOp.Regular : PageOp → Prop
  | .newInode _ _ _ mode => sIsReg mode = true ∧ mode < 2 ^ 16
  | .write _ pos chunk => pos + chunk.length ≤ MAX_NON_LFS
  | .setattr _ _ attr => ∀ mode ∈ attr.iaMode, sIsReg mode = true ∧ mode < 2 ^ 16
  | _ => True

/-- One step: an operation on data, a dirty inode or a block of a map written back, or a mount of
the device once it has everything, with its block size still set. -/
inductive DiskStep (sb : Sb) (behind : Nat → Nat) :
    PageCache → DiskOp → DiskOut → PageCache → Prop
  | page {s op out s'} : op.Regular → PageStep sb behind s op out s' →
    DiskStep sb behind s (.page op) (.page out) s'
  | writeInode {s ids ino inode} : s.fs.files ino = some inode → inode.iDirty = true →
    DiskStep sb behind s (.writeInode ino) .done
      { s with fs := { s.fs with
          dev := s.fs.dev.writeInode sb ids inode
          files := Function.update s.fs.files ino (some { inode with iDirty := false }) } }
  | writeZmap {s i} : i < sb.sbi.asbZoneMapBlocks →
    DiskStep sb behind s (.writeZmap i) .done
      { s with fs := { s.fs with dev := s.fs.dev.writeMap sb (1 + i) (s.fs.zmap i) } }
  | writeImap {s i} : i < sb.sbi.asbInodeMapBlocks →
    DiskStep sb behind s (.writeImap i) .done
      { s with fs := { s.fs with
          dev := s.fs.dev.writeMap sb (1 + sb.sbi.asbZoneMapBlocks + i) (s.fs.imap i) } }
  | remount {s env leftover fs} : s.Synced sb → env.blockSize = sb.sBlocksize →
    mountAufsFillSb env s.fs.dev = .ok (.ok fs) →
    DiskStep sb behind s (.remount env leftover) .done (s.remounted leftover fs)

/-! ## What operations on data leave alone -/

/-- Inode `ino`, a regular file of a size that the VFS allows. -/
structure AufsInode.IsFile (ino : Nat) (inode : AufsInode) : Prop where
  num : inode.iIno = ino
  reg : sIsReg inode.iMode = true
  mode : inode.iMode < 2 ^ 16
  size : inode.iSize ≤ MAX_NON_LFS

namespace AufsInode.IsFile

variable {inode : AufsInode}

theorem writeEnd (h : inode.IsFile ino) (hle : pos + n ≤ MAX_NON_LFS) :
    (genericWriteEnd inode pos n).IsFile ino := by
  unfold genericWriteEnd
  split
  · exact ⟨h.num, h.reg, h.mode, hle⟩
  · exact h

theorem new {task : Task} {dir : AufsInode} {leftover : Fin ZONE_PTR_IN_INODE_NUM → Nat}
    {mode : Nat} (hreg : sIsReg mode = true) (hmode : mode < 2 ^ 16) :
    (initInode task (newInode leftover) dir mode ino).IsFile ino := by
  have heq : (initInode task (newInode leftover) dir mode ino).iMode = mode := by
    refine initInode_iMode ?_
    simp only [sIsReg, decide_eq_true_eq] at hreg
    simp only [sIsDir, hreg]
    decide
  refine ⟨rfl, by rw [heq]; exact hreg, by rw [heq]; exact hmode, ?_⟩
  rw [initInode_iSize]
  exact Nat.zero_le _

/-- A change of the attributes that keeps the type of the file. -/
theorem setattr (h : inode.IsFile ino) {attr : Iattr}
    (hattr : ∀ mode ∈ attr.iaMode, sIsReg mode = true ∧ mode < 2 ^ 16) :
    (minixSetattr prepared inode attr).2.IsFile ino := by
  unfold minixSetattr
  cases prepared with
  | error => exact h
  | ok =>
    cases hset : setattrSize inode attr with
    | error => exact h
    | ok inode' =>
      have h' : inode'.IsFile ino := by
        rcases setattrSize_cases hset with rfl | ⟨size, -, hle, rfl⟩
        · exact h
        · exact ⟨h.num, h.reg, h.mode, hle⟩
      have hcopy : sIsReg (attr.iaMode.getD inode'.iMode) = true ∧
          attr.iaMode.getD inode'.iMode < 2 ^ 16 := by
        cases hmode : attr.iaMode with
        | none => exact ⟨h'.reg, h'.mode⟩
        | some mode => exact hattr mode hmode
      exact ⟨h'.num, hcopy.1, hcopy.2, h'.size⟩

end AufsInode.IsFile

/-- What operations on data do to the file system: blocks mapped by `aufs_get_block`, inodes changed
as `P` allows, blocks of files stored on the device. -/
inductive FileSys.Edits (sb : Sb) (behind : Nat → Nat) (P : Nat → AufsInode → AufsInode → Prop)
    (s : FileSys) : FileSys → Prop
  | refl : Edits sb behind P s s
  | getBlock {s'} : Edits sb behind P s s' →
    s'.getBlock sb behind ino iblock create = some (ret, s'') → Edits sb behind P s s''
  | inode {s'} : Edits sb behind P s s' → s'.files ino = some inode → P ino inode inode' →
    Edits sb behind P s (s'.setInode ino inode')
  | store {s'} : Edits sb behind P s s' → s'.block sb behind ino iblock = some b →
    Edits sb behind P s { s' with dev := s'.dev.write (b * sb.sBlocksize) bytes }

/-- `inode'` has the zone pointers of `inode` and is a file if `inode` is. -/
def AufsInode.SameFile (ino : Nat) (inode inode' : AufsInode) : Prop :=
  inode'.aiZonePtr = inode.aiZonePtr ∧ (inode.IsFile ino → inode'.IsFile ino)

theorem FileSys.Edits.writeEnd {s s' : FileSys} (e : s.Edits sb behind AufsInode.SameFile s')
    (hle : pos + n ≤ MAX_NON_LFS) :
    s.Edits sb behind AufsInode.SameFile (s'.writeEnd ino pos n) := by
  cases hi : s'.files ino with
  | none =>
    have heq : s'.writeEnd ino pos n = s' := by
      simp only [FileSys.writeEnd, hi, Option.map_none]
      rw [← hi, Function.update_eq_self]
    rw [heq]
    exact e
  | some inode =>
    rw [PageCache.writeEnd_eq hi]
    exact e.inode hi ⟨genericWriteEnd_aiZonePtr inode, fun hfile => hfile.writeEnd hle⟩

namespace PageCache

variable {s s' : PageCache} {P : Nat → AufsInode → AufsInode → Prop}

theorem readBlock_edits (h : s.readBlock sb behind ino iblock create = some (bytes, s')) :
    s.fs.Edits sb behind P s'.fs := by
  obtain ⟨⟨ret, fs⟩, hget, h⟩ := Option.bind_eq_some_iff.mp h
  have e : s.fs.Edits sb behind P fs := .getBlock .refl hget
  cases ret with
  | error =>
    cases h
    exact e
  | ok b =>
    simp only at h
    split at h
    · cases h
      exact e
    · cases h
      exact e

theorem loadBlock_edits (h : s.loadBlock sb behind ino iblock create = some (buf, s')) :
    s.fs.Edits sb behind P s'.fs := by
  unfold loadBlock at h
  split at h
  · cases h
    exact .refl
  · obtain ⟨⟨bytes, s₁⟩, hread, h⟩ := Option.bind_eq_some_iff.mp h
    have e : s.fs.Edits sb behind P s₁.fs := readBlock_edits hread
    cases bytes with
    | none =>
      cases h
      exact e
    | some bytes =>
      cases h
      exact e

theorem minixWriteBegin_edits (h : s.minixWriteBegin sb behind ino pos len = some (buf, s')) :
    s.fs.Edits sb behind P s'.fs := by
  unfold minixWriteBegin at h
  simp only at h
  split at h
  · split at h
    · obtain ⟨⟨ret, fs⟩, hget, h⟩ := Option.bind_eq_some_iff.mp h
      have e : s.fs.Edits sb behind P fs := .getBlock .refl hget
      cases ret with
      | error =>
        cases h
        rw [minixWriteFailed_fs]
        exact e
      | ok =>
        cases h
        exact e
    · obtain ⟨⟨buf', s₁⟩, hload, h⟩ := Option.bind_eq_some_iff.mp h
      have e : s.fs.Edits sb behind P s₁.fs := loadBlock_edits hload
      cases buf' with
      | none =>
        cases h
        rw [minixWriteFailed_fs]
        exact e
      | some =>
        cases h
        exact e
  · split at h
    · cases h
      exact .refl
    · obtain ⟨⟨ret, fs⟩, hget, h⟩ := Option.bind_eq_some_iff.mp h
      have e : s.fs.Edits sb behind P fs := .getBlock .refl hget
      cases ret with
      | error =>
        cases h
        rw [minixWriteFailed_fs]
        exact e
      | ok =>
        cases h
        exact e

theorem read_edits (h : s.read sb behind ino pos n = some (bytes, s')) :
    s.fs.Edits sb behind P s'.fs := by
  obtain ⟨inode, -, h⟩ := Option.bind_eq_some_iff.mp h
  simp only at h
  split at h
  · cases h
    exact .refl
  · obtain ⟨⟨buf, s₁⟩, hload, h⟩ := Option.bind_eq_some_iff.mp h
    cases h
    exact loadBlock_edits hload

theorem readpage_edits (h : s.readpage sb behind ino iblock = some s') :
    s.fs.Edits sb behind P s'.fs := by
  obtain ⟨inode, -, h⟩ := Option.bind_eq_some_iff.mp h
  obtain ⟨-, h⟩ := FileSys.guard_bind_eq_some.mp h
  split at h
  · obtain ⟨⟨buf, s₁⟩, hload, h⟩ := Option.bind_eq_some_iff.mp h
    cases h
    exact loadBlock_edits hload
  · split at h
    · cases h
      exact .refl
    · cases h
      exact .refl

theorem evict_fs (h : s.evict ino iblock = some s') : s'.fs = s.fs := by
  obtain ⟨buf, -, h⟩ := Option.bind_eq_some_iff.mp h
  obtain ⟨-, h⟩ := FileSys.guard_bind_eq_some.mp h
  cases h
  rfl

theorem writepage_edits (M : Mounted config sb) (S : s.Sound config sb)
    (h : s.writepage sb behind ino iblock = some s') : s.fs.Edits sb behind P s'.fs := by
  obtain ⟨inode, hi, h⟩ := Option.bind_eq_some_iff.mp h
  obtain ⟨buf, hbuf, h⟩ := Option.bind_eq_some_iff.mp h
  obtain ⟨-, h⟩ := FileSys.guard_bind_eq_some.mp h
  simp only at h
  split at h
  · obtain ⟨⟨ret, fs⟩, hget, h⟩ := Option.bind_eq_some_iff.mp h
    have e : s.fs.Edits sb behind P fs := .getBlock .refl hget
    obtain ⟨-, -, -, b, rfl, hb⟩ := FileSys.getBlock_spec M S.inv hget
    simp only at h
    split at h
    · cases h
      exact e.store hb
    · cases h
      exact e
  · cases h
    exact .refl

end PageCache

open PageCache

theorem PageStep.edits {s s' : PageCache} (M : Mounted config sb) (S : s.Sound config sb)
    (hop : op.Regular) (hs : PageStep sb behind s op out s') :
    (∃ task leftover dir mode, op = .newInode task leftover dir mode) ∨
      s.fs.Edits sb behind AufsInode.SameFile s'.fs := by
  cases hs with
  | newInode => exact .inl ⟨_, _, _, _, rfl⟩
  | write _ _ hstep =>
    obtain ⟨⟨buf, s₁⟩, hbegin, h⟩ := Option.bind_eq_some_iff.mp hstep
    have e : s.fs.Edits sb behind AufsInode.SameFile s₁.fs := minixWriteBegin_edits hbegin
    cases buf with
    | none =>
      cases h
      exact .inr e
    | some =>
      cases h
      exact .inr (e.writeEnd hop)
  | read _ hstep => exact .inr (read_edits hstep)
  | readpage hstep => exact .inr (readpage_edits hstep)
  | writepage hstep => exact .inr (writepage_edits M S hstep)
  | evict hstep =>
    rw [evict_fs hstep]
    exact .inr .refl
  | @setattr ino prepared attr ret old new _ hstep =>
    obtain ⟨inode, hi, h⟩ := Option.bind_eq_some_iff.mp hstep
    have hsame : inode.SameFile ino (minixSetattr prepared inode attr).2 :=
      ⟨(minixSetattr_size prepared inode attr).1, fun hfile => hfile.setattr hop⟩
    simp only [Option.pure_def, Option.some.injEq, Prod.mk.injEq] at h
    generalize minixSetattr prepared inode attr = r at h hsame
    obtain ⟨-, -, -, rfl⟩ := h
    have e : s.fs.Edits sb behind AufsInode.SameFile (s.fs.setInode ino r.2) :=
      .inode .refl hi hsame
    refine .inr ?_
    split
    · exact e
    · exact e

/-- The inode map, the device in front of the zones, and that every inode is a file, stay. -/
structure FileSys.Moves (sb : Sb) (s s' : FileSys) : Prop where
  imap : s'.imap = s.imap
  size : s'.dev.size = s.dev.size
  front : ∀ a < 1024 * sb.sBlocksize, s'.dev.bytes a = s.dev.bytes a
  files : ∀ ino inode', s'.files ino = some inode' →
    ∃ inode, s.files ino = some inode ∧ (inode.IsFile ino → inode'.IsFile ino)

namespace FileSys.Moves

variable {s s' s'' : FileSys}

theorem refl : Moves sb s s := ⟨rfl, rfl, fun _ _ => rfl, fun _ inode hi => ⟨inode, hi, id⟩⟩

theorem trans (h : Moves sb s s') (h' : Moves sb s' s'') : Moves sb s s'' where
  imap := h'.imap.trans h.imap
  size := h'.size.trans h.size
  front a ha := (h'.front a ha).trans (h.front a ha)
  files ino inode'' hi'' := by
    obtain ⟨inode', hi', hfile'⟩ := h'.files ino inode'' hi''
    obtain ⟨inode, hi, hfile⟩ := h.files ino inode' hi'
    exact ⟨inode, hi, hfile' ∘ hfile⟩

/-- A change of one inode. -/
theorem update {zmap : MapBlocks} (hi : s.files ino = some inode)
    (hfile : inode.IsFile ino → inode'.IsFile ino) :
    Moves sb s { s with zmap, files := Function.update s.files ino (some inode') } where
  imap := rfl
  size := rfl
  front _ _ := rfl
  files ino' inode'' h := by
    rcases PartialMap.update_eq_some h with ⟨rfl, heq⟩ | ⟨-, h⟩
    · cases heq
      exact ⟨inode, hi, hfile⟩
    · exact ⟨inode'', h, id⟩

theorem getBlock (h : s.getBlock sb behind ino iblock create = some (ret, s')) :
    Moves sb s s' := by
  obtain ⟨inode, hi, h⟩ := Option.bind_eq_some_iff.mp h
  obtain ⟨-, h⟩ := guard_bind_eq_some.mp h
  obtain ⟨-, h⟩ := guard_bind_eq_some.mp h
  cases h
  obtain ⟨ptr, heq⟩ := aufsGetBlock_inode sb s.zmap inode behind iblock sb.sBlocksize create
  refine update hi fun hfile => ?_
  rw [heq]
  exact ⟨hfile.num, hfile.reg, hfile.mode, hfile.size⟩

/-- A block of a file lies in a zone. -/
theorem store (M : Mounted config sb) (I : s.Inv config sb)
    (hb : s.block sb behind ino iblock = some b) (bytes : List Byte) :
    Moves sb s { s with dev := s.dev.write (b * sb.sBlocksize) bytes } := by
  obtain ⟨hidx, p, hp, rfl⟩ := (block_eq_some_iff M I).mp hb
  obtain ⟨j, hj2, -, -, rfl⟩ := I.owned _ _ _ hp
  refine ⟨rfl, rfl, fun a ha => ?_, fun _ inode hi => ⟨inode, hi, id⟩⟩
  have hge := M.zoneStart_ge hj2
  have hle : 1024 * sb.sBlocksize ≤
      (iblock % config.blocksPerZone + sb.zoneStart config j) * sb.sBlocksize :=
    Nat.mul_le_mul_right _ (by omega)
  exact poke_outside (.inl (by omega))

end FileSys.Moves

theorem FileSys.Edits.moves {s s' : FileSys} (M : Mounted config sb) (I : s.Inv config sb)
    (e : s.Edits sb behind AufsInode.SameFile s') : s'.Inv config sb ∧ s.Moves sb s' := by
  induction e with
  | refl => exact ⟨I, .refl⟩
  | getBlock _ hget ih => exact ⟨(getBlock_spec M ih.1 hget).1, ih.2.trans (.getBlock hget)⟩
  | inode _ hi hsame ih =>
    exact ⟨ih.1.setInode hi hsame.1, ih.2.trans (.update hi hsame.2)⟩
  | store _ hb ih =>
    obtain ⟨I', hmove⟩ := ih
    exact ⟨⟨I'.clear, I'.named, I'.owned, I'.distinct⟩, hmove.trans (.store M I' hb _)⟩

theorem PageStep.moves {s s' : PageCache} (M : Mounted config sb) (S : s.Sound config sb)
    (hop : op.Regular) (hs : PageStep sb behind s op out s') :
    (∃ task leftover dir mode, op = .newInode task leftover dir mode) ∨ s.fs.Moves sb s'.fs :=
  (hs.edits M S hop).imp_right fun e => (e.moves M S.inv).2

theorem Mounted.blocksize_bounds (M : Mounted config sb) :
    512 ≤ sb.sBlocksize ∧ sb.sBlocksize ≤ 4096 := by
  have hbs := M.accepted.blockSize_cases
  rw [M.reads.blocksize]
  omega

/-! ## The front of the device -/

/-- A byte of a mapped block lies behind the front. -/
theorem FileSys.front_le (M : Mounted config sb) {s : FileSys} (I : s.Inv config sb)
    (hb : s.block sb behind ino iblock = some b) : 1024 * sb.sBlocksize ≤ b * sb.sBlocksize := by
  obtain ⟨hidx, p, hp, rfl⟩ := (FileSys.block_eq_some_iff M I).mp hb
  obtain ⟨j, hj2, -, -, rfl⟩ := I.owned _ _ _ hp
  have hge := M.zoneStart_ge hj2
  exact Nat.mul_le_mul_right _ (by omega)

/-- A write in front of the zones keeps what the files hold. -/
theorem PageCache.Keeps.front {s : PageCache} (M : Mounted config sb) (I : s.fs.Inv config sb)
    (h : s.Keeps sb behind k v) {dev : Device} (hsize : dev.size = s.fs.dev.size)
    (hback : ∀ a, 1024 * sb.sBlocksize ≤ a → dev.bytes a = s.fs.dev.bytes a) :
    Keeps sb behind { s with fs := { s.fs with dev } } k v := by
  refine ⟨h.sized, h.cached, h.disk.imp_left fun hdisk => ?_⟩
  obtain ⟨b, hb, hon, hv⟩ := diskByte_eq_some_iff.mp hdisk
  refine diskByte_eq_some_iff.mpr ⟨b, hb, ?_, ?_⟩
  · rw [Device.HasBlock, hsize]
    exact hon
  · have hle := FileSys.front_le M I hb
    exact (hback _ (by omega)).trans hv

theorem PageCache.Sound.front {s : PageCache} (S : s.Sound config sb) {dev : Device}
    (hsize : dev.size = s.fs.dev.size) :
    Sound config sb { s with fs := { s.fs with dev } } :=
  ⟨⟨S.inv.clear, S.inv.named, S.inv.owned, S.inv.distinct⟩, by rw [hsize]; exact S.zones, S.owner⟩

/-- Writing an inode back changes its slot. -/
theorem Device.writeInode_bytes (ids : OverflowIds) (hbs : sb.sBlocksize ≤ 4096)
    (hslot : sb.HasSlot inode.iIno) (hino : inode.iIno ≠ 0) {dev : Device}
    (hon : dev.HasBlock sb.sBlocksize (aufsInodeBlock sb.sbi inode.iIno)) :
    dev.writeInode sb ids inode = dev.write (slotAddress sb inode.iIno)
      (peek (v2MinixUpdateInode ids inode fun k => dev.bytes (slotAddress sb inode.iIno + k)) 0
        64) := by
  have hread : inode.iIno ≠ 0 ∧
      dev.unbuffered.Readable sb.sBlocksize true (aufsInodeBlock sb.sbi inode.iIno) :=
    ⟨hino, .inr ⟨rfl, hon⟩⟩
  have hoff := hslot.2
  unfold Device.writeInode
  rw [BufferedDevice.minixWriteInode_eq hbs hslot, if_pos hread, if_pos rfl]
  simp only [BufferedDevice.submit, if_true, BufferedDevice.dev, Device.write, Device.mk.injEq]
  refine ⟨rfl, funext fun a => ?_⟩
  have hslot : (fun k => dev.bytes (slotAddress sb inode.iIno + k)) = fun k =>
      dev.bytes (aufsInodeBlock sb.sbi inode.iIno * sb.sBlocksize +
        (aufsInodeOffset sb.sbi inode.iIno + k)) := by
    funext k
    rw [slotAddress, Nat.add_assoc]
  rw [hslot, slotAddress]
  exact congrFun (poke_window (by rw [peek_length]; exact hoff)) a

/-! ## What is on the device all the time -/

/-- Besides a sound state: super block and root inode are those of `image`, and every file has an
inode number that was free in the image. -/
structure PageCache.OnDisk (config : Configuration) (sb : Sb) (image : Image) (s : PageCache) :
    Prop where
  sound : s.Sound config sb
  room : 1024 * sb.sBlocksize ≤ s.fs.dev.size
  superBlock : ∀ k < 28, s.fs.dev.bytes k = image.superBlock k
  root : ∀ k < 64, s.fs.dev.bytes (slotAddress sb 1 + k) = image.rootSlot sb k
  imap : ∀ j < 8 * sb.sBlocksize, bit (s.fs.imap 0) j = false → bit image.inodeMap j = false
  files : ∀ ino inode, s.fs.files ino = some inode →
    inode.IsFile ino ∧ ino < 8 * sb.sBlocksize ∧ bit image.inodeMap ino = false

/-- Where the kernel looks for an inode of the image: behind the maps and in front of the zones. -/
structure InTable (config : Configuration) (sb : Sb) (ino : Nat) : Prop where
  hasSlot : sb.HasSlot ino
  address : slotAddress sb ino = 3 * sb.sBlocksize + 64 * ino
  lt : aufsInodeBlock sb.sbi ino < 1024

theorem InTable.slot_end (h : InTable config sb ino) :
    slotAddress sb ino + 64 ≤ 1024 * sb.sBlocksize := by
  have hle : (aufsInodeBlock sb.sbi ino + 1) * sb.sBlocksize ≤ 1024 * sb.sBlocksize :=
    Nat.mul_le_mul_right _ h.lt
  rw [Nat.add_mul, Nat.one_mul] at hle
  have hoff := h.hasSlot.2
  unfold slotAddress
  omega

theorem InTable.onDevice {dev : Device} (h : InTable config sb ino)
    (hroom : 1024 * sb.sBlocksize ≤ dev.size) :
    dev.HasBlock sb.sBlocksize (aufsInodeBlock sb.sbi ino) :=
  Nat.le_trans (Nat.mul_le_mul_right _ h.lt) hroom

section
variable {image : Image} {menv : MkfsEnv} (M : Mounted config sb)
  (hf : image.Formatted config menv)
  (hplaced : 4096 ≤ config.zoneSize ∨ config.numZones ≤ config.blockSize / sizeofInode)
include M hf hplaced

theorem inTable (h : image.UsesInode config ino) : InTable config sb ino := by
  have H := M.accepted
  have R := M.reads
  have hplace := placedAlike_of_uses H R hf hplaced h
  have hblock := hplace.1
  have hoff := hplace.2.2
  obtain ⟨-, hlt⟩ := h.lt H hf
  have hslot : config.HasInodeSlot ino := hasInodeSlot_of_lt H
    (Nat.lt_of_lt_of_le hlt (by rw [H.numInodes_eq]; exact Nat.min_le_left _ _))
  have hmeta := H.metadataBlocks_le
  have hlt : aufsInodeBlock sb.sbi ino < 1024 := by
    have := hslot.2.1
    omega
  refine ⟨⟨by omega, hoff⟩, ?_, hlt⟩
  rw [slotAddress_eq H R hplace, R.blocksize]

theorem root_inTable : InTable config sb 1 := inTable M hf hplaced (.inl rfl)

omit hplaced in
theorem PageCache.OnDisk.usesInode {s : PageCache} (O : s.OnDisk config sb image)
    (hi : s.fs.files ino = some inode) : image.UsesInode config ino ∧ 2 ≤ ino := by
  obtain ⟨-, hlt, hbit⟩ := O.files ino inode hi
  have hlt : ino < config.blockSize * 8 := by
    rw [← M.reads.blocksize]
    omega
  exact ⟨.inr ⟨hlt, hbit⟩, ((hf.inodeMap ino hlt).mp hbit).1⟩

/-! ## One step -/

variable {s s' : PageCache}

/-- Writing a file back changes its slot on the device. -/
theorem PageCache.OnDisk.writeInode_eq (ids : OverflowIds) (O : s.OnDisk config sb image)
    (hi : s.fs.files ino = some inode) :
    s.fs.dev.writeInode sb ids inode = s.fs.dev.write (slotAddress sb ino)
      (peek (v2MinixUpdateInode ids inode fun k => s.fs.dev.bytes (slotAddress sb ino + k)) 0
        64) := by
  obtain ⟨hfile, -, -⟩ := O.files ino inode hi
  obtain ⟨huse, h2⟩ := O.usesInode M hf hi
  have htable := inTable M hf hplaced huse
  have hslot := htable.hasSlot
  rw [← hfile.num] at hslot
  have hdev := Device.writeInode_bytes ids M.blocksize_bounds.2 hslot (by rw [hfile.num]; omega)
    (by rw [hfile.num]; exact htable.onDevice O.room)
  rwa [hfile.num] at hdev

theorem PageCache.OnDisk.moves (O : s.OnDisk config sb image) (S' : s'.Sound config sb)
    (h : s.fs.Moves sb s'.fs) : s'.OnDisk config sb image where
  sound := S'
  room := by
    rw [h.size]
    exact O.room
  superBlock k hk := by
    have hbs := M.blocksize_bounds
    rw [h.front k (by omega)]
    exact O.superBlock k hk
  root k hk := by
    have hend := (root_inTable M hf hplaced).slot_end
    rw [h.front _ (by omega)]
    exact O.root k hk
  imap j hj hbit := by
    rw [h.imap] at hbit
    exact O.imap j hj hbit
  files ino inode' hi' := by
    obtain ⟨inode, hi, hfile⟩ := h.files ino inode' hi'
    obtain ⟨hold, hlt, hbit⟩ := O.files ino inode hi
    exact ⟨hfile hold, hlt, hbit⟩

omit hf hplaced in
/-- A new file takes a number that was free all the time. -/
theorem PageCache.OnDisk.newInode (O : s.OnDisk config sb image) {fs : FileSys}
    (S' : PageCache.Sound config sb { s with fs }) (hreg : sIsReg mode = true)
    (hmode : mode < 2 ^ 16)
    (h : s.fs.exec sb behind (.newInode task leftover dir mode) = some (out, fs)) :
    PageCache.OnDisk config sb image { s with fs } := by
  simp only [FileSys.exec] at h
  rcases aufsNewInode_cases M.reads.inodeMapBlocks task s.fs.imap (Aufs.newInode leftover) dir mode
    with ⟨-, heq⟩ | ⟨j, hj, hbit, -, heq⟩
  · simp only [heq, Option.some.injEq, Prod.mk.injEq] at h
    obtain ⟨-, rfl⟩ := h
    exact ⟨S', O.room, O.superBlock, O.root, O.imap, O.files⟩
  · have hclear : ∀ k < 8 * sb.sBlocksize,
        bit (Function.update s.fs.imap 0 (minixSetBit j (s.fs.imap 0)) 0) k = false →
        bit image.inodeMap k = false := by
      intro k hk hbit
      rw [Function.update_self, minixSetBit, bit_setBit] at hbit
      split at hbit
      · cases hbit
      · exact O.imap k hk hbit
    by_cases h0 : j = 0
    · simp only [heq, if_pos h0, Option.some.injEq, Prod.mk.injEq] at h
      obtain ⟨-, rfl⟩ := h
      exact ⟨S', O.room, O.superBlock, O.root, hclear, O.files⟩
    · simp only [heq, if_neg h0, Option.some.injEq, Prod.mk.injEq] at h
      obtain ⟨-, rfl⟩ := h
      refine ⟨S', O.room, O.superBlock, O.root, hclear, fun ino inode hi => ?_⟩
      rcases PartialMap.update_eq_some hi with ⟨hino, heq⟩ | ⟨-, hi⟩
      · cases heq
        rw [hino]
        exact ⟨.new hreg hmode, hj, O.imap j hj hbit⟩
      · exact O.files ino inode hi

omit hf hplaced in
/-- A write in front of the zones that leaves super block and root inode alone. -/
theorem PageCache.OnDisk.front (O : s.OnDisk config sb image) (a : Nat) (bs : List Byte)
    (ha : 28 ≤ a) (hroot : a + bs.length ≤ slotAddress sb 1 ∨ slotAddress sb 1 + 64 ≤ a)
    (hend : a + bs.length ≤ 1024 * sb.sBlocksize) :
    PageCache.OnDisk config sb image
        { s with fs := { s.fs with dev := s.fs.dev.write a bs } } ∧
      ∀ k v, s.Keeps sb behind k v →
        PageCache.Keeps sb behind { s with fs := { s.fs with dev := s.fs.dev.write a bs } } k
          v := by
  refine ⟨⟨O.sound.front rfl, O.room, fun k hk => ?_, fun k hk => ?_, O.imap, O.files⟩,
    fun k v hk => hk.front M O.sound.inv rfl fun x hx => poke_outside (.inr (by omega))⟩
  · exact (poke_outside (.inl (by omega))).trans (O.superBlock k hk)
  · exact (poke_outside (by omega)).trans (O.root k hk)

/-- Writing back a block of a map. -/
theorem PageCache.OnDisk.writeMap (O : s.OnDisk config sb image) {no : Nat} (h1 : 1 ≤ no)
    (h2 : no ≤ 2) (block : Mem) :
    PageCache.OnDisk config sb image
        { s with fs := { s.fs with dev := s.fs.dev.writeMap sb no block } } ∧
      ∀ k v, s.Keeps sb behind k v → PageCache.Keeps sb behind
        { s with fs := { s.fs with dev := s.fs.dev.writeMap sb no block } } k v := by
  have hbs := M.blocksize_bounds
  have hroot := (root_inTable M hf hplaced).address
  have hno : no * sb.sBlocksize = sb.sBlocksize ∨ no * sb.sBlocksize = 2 * sb.sBlocksize := by
    rcases (show no = 1 ∨ no = 2 by omega) with rfl | rfl
    · exact .inl (Nat.one_mul _)
    · exact .inr rfl
  have hlen : (peek block 0 sb.sBlocksize).length = sb.sBlocksize := peek_length
  exact O.front M _ _ (by omega) (by omega) (by omega)

/-- Writing back an inode. -/
theorem PageCache.OnDisk.writeInode (O : s.OnDisk config sb image)
    (hi : s.fs.files ino = some inode) :
    PageCache.OnDisk config sb image
        { s with fs := { s.fs with
            dev := s.fs.dev.writeInode sb ids inode
            files := Function.update s.fs.files ino (some { inode with iDirty := false }) } } ∧
      ∀ k v, s.Keeps sb behind k v → PageCache.Keeps sb behind
        { s with fs := { s.fs with
            dev := s.fs.dev.writeInode sb ids inode
            files := Function.update s.fs.files ino (some { inode with iDirty := false }) } } k
          v := by
  obtain ⟨huse, h2⟩ := O.usesInode M hf hi
  have htable := inTable M hf hplaced huse
  have hroot := (root_inTable M hf hplaced).address
  have hbs := M.blocksize_bounds
  have hend := htable.slot_end
  have haddr := htable.address
  rw [O.writeInode_eq M hf hplaced ids hi]
  have hptr : ({ inode with iDirty := false } : AufsInode).aiZonePtr = inode.aiZonePtr := rfl
  have I₁ : (s.fs.setInode ino { inode with iDirty := false }).Inv config sb :=
    O.sound.inv.setInode hi hptr
  have S₁ : PageCache.Sound config sb
      { s with fs := s.fs.setInode ino { inode with iDirty := false } } := by
    refine O.sound.files I₁ rfl fun ino' h => ?_
    exact PartialMap.isSome_update ino _ h
  have hmove : s.fs.Moves sb (s.fs.setInode ino { inode with iDirty := false }) :=
    .update hi fun h => ⟨h.num, h.reg, h.mode, h.size⟩
  have O₁ := O.moves M hf hplaced S₁ hmove
  obtain ⟨O₂, hkeep⟩ := O₁.front M (slotAddress sb ino)
    (peek (v2MinixUpdateInode ids inode fun k => s.fs.dev.bytes (slotAddress sb ino + k)) 0 64)
    (by omega) (by rw [peek_length]; omega) (by rw [peek_length]; exact hend)
  refine ⟨O₂, fun k v hk => hkeep k v ?_⟩
  refine hk.files rfl (fun _ _ _ hb => ?_) fun inode₁ h₁ hlt => ?_
  · exact (FileSys.block_setInode hi hptr M O.sound.inv).trans hb
  · by_cases hino : k.1 = ino
    · rw [hino] at h₁ ⊢
      cases hi.symm.trans h₁
      exact ⟨_, FileSys.setInode_files_self, hlt⟩
    · exact ⟨inode₁, (Function.update_of_ne hino ..).trans h₁, hlt⟩

end

/-! ## Mounting again -/

section
variable {env : MountEnv} {dev : Device} {fs : MountedFs}

/-- The only buffer of a map of one block. -/
theorem readMapBlocks_one {bh : Buffer} {bhs : List Buffer} {no : Nat}
    (h : readMapBlocks env dev 1 no = some (bh :: bhs)) :
    bh.bData = fun k => dev.bytes (no * env.blockSize + k) := by
  simp only [readMapBlocks, Option.bind_eq_bind, Option.bind_eq_some_iff] at h
  obtain ⟨bh', hbh, bhs', -, heq⟩ := h
  cases heq
  rw [(sbBread_eq_some hbh).2]

/-- What a mount of a device with the super block of `sb` gives. -/
theorem mount_reads (M : Mounted config sb) (hsbi : dev.superBlock = sb.sbi)
    (hmount : mountAufsFillSb env dev = .ok (.ok fs)) :
    fs.sb = sb ∧
      (fs.sZmap[0]?).map Buffer.bData =
        some (minixSetBit 0 fun k => dev.bytes (1 * env.blockSize + k)) ∧
      (fs.sImap[0]?).map Buffer.bData =
        some (minixSetBit 0 fun k => dev.bytes (2 * env.blockSize + k)) := by
  obtain ⟨maps, hread⟩ := mount_returns_iff.mp ⟨_, hmount⟩
  simp only [mountAufsFillSb, hread, Except.ok.injEq] at hmount
  obtain ⟨hfsbi, hblocksize, hsz, hsi⟩ := fillSbFrom_ok hmount
  obtain ⟨-, -, -, -, zbhs, ibh, ibhs, hzmap, himap, rfl⟩ :=
    aufsSuperBlockRead_eq_some.mp hread
  rw [hsbi, M.reads.zoneMapBlocks] at hzmap himap
  rw [M.reads.inodeMapBlocks] at himap
  obtain ⟨zbh, rfl⟩ := List.length_eq_one_iff.mp (readMapBlocks_length hzmap)
  simp only [hsbi] at hfsbi hblocksize
  refine ⟨?_, ?_, ?_⟩
  · have hbs : sb.sBlocksize = if sb.sbi.asbZoneSize > 4096 then 4096 else sb.sbi.asbZoneSize := by
      rw [M.reads.blocksize, M.reads.zoneSize]
      rfl
    rw [← hbs] at hblocksize
    cases hfs : fs.sb with
    | mk sbi bs =>
      rw [hfs] at hfsbi hblocksize
      cases sb
      cases hfsbi
      cases hblocksize
      rfl
  · rw [hsz]
    change some (minixSetBit 0 zbh.bData) = _
    rw [readMapBlocks_one hzmap]
  · rw [hsi]
    change some (minixSetBit 0 ibh.bData) = _
    rw [readMapBlocks_one himap]

end

/-- `inode'` maps the same blocks as `inode` and is a file of the same size and type. -/
structure AufsInode.SameData (inode inode' : AufsInode) : Prop where
  zonePtr : inode'.aiZonePtr = inode.aiZonePtr
  size : inode'.iSize = inode.iSize
  mode : inode'.iMode = inode.iMode

/-- A file whose slot is on the device is found again. -/
theorem reload_file {dev : Device} {inode : AufsInode} (htable : InTable config sb ino)
    (hroom : 1024 * sb.sBlocksize ≤ dev.size) (hfile : inode.IsFile ino)
    (hptr : ∀ i, inode.aiZonePtr i < 2 ^ 32)
    (hslot : ∀ k < 64,
      dev.bytes (slotAddress sb ino + k) = v2MinixUpdateInode ids inode (fun _ => 0) k)
    (leftover : Fin ZONE_PTR_IN_INODE_NUM → Nat) :
    ∃ inode', (dev.unbuffered.aufsInodeGet sb true leftover ino).1 = .ok inode' ∧
      inode'.IsFile ino ∧ inode.SameData inode' := by
  rcases hret : dev.unbuffered.aufsInodeGet sb true leftover ino with ⟨ret, s'⟩
  rcases BufferedDevice.aufsInodeGet_cases hret with ⟨hread, -⟩ | ⟨-, hret, -⟩
  · exact absurd (.inr ⟨rfl, htable.onDevice hroom⟩) hread
  · have hview : ∀ k < 64, dev.unbuffered.blocks.view sb.sBlocksize (aufsInodeBlock sb.sbi ino)
        (aufsInodeOffset sb.sbi ino + k) = v2MinixUpdateInode ids inode (fun _ => 0) k := by
      intro k hk
      rw [← hslot k hk, slotAddress, Nat.add_assoc]
      rfl
    rw [aufsInodeGet_congr hview] at hret
    have hsize : inode.iSize < 2 ^ 32 := Nat.lt_of_le_of_lt hfile.size (by decide)
    obtain ⟨hsameptr, hsamesize⟩ : (aufsInodeFill { newInode leftover with iIno := ino }
        (v2MinixUpdateInode ids inode fun _ => 0)).aiZonePtr = _ ∧ _ :=
      aufsInodeFill_update hptr hsize
    have hmode : (aufsInodeFill { newInode leftover with iIno := ino }
        (v2MinixUpdateInode ids inode fun _ => 0)).iMode = inode.iMode := by
      simp only [aufsInodeFill, be32_update_mode hfile.mode, Nat.mod_eq_of_lt hfile.mode]
    have hreg : sIsReg (aufsInodeFill { newInode leftover with iIno := ino }
        (v2MinixUpdateInode ids inode fun _ => 0)).iMode = true := by
      rw [hmode]
      exact hfile.reg
    rw [aufsInodeGet_of_mode (.inl hreg)] at hret
    refine ⟨_, hret, ⟨rfl, hreg, ?_, ?_⟩, hsameptr, hsamesize, hmode⟩
    · rw [hmode]
      exact hfile.mode
    · rw [hsamesize]
      exact hfile.size

/-- A map that is read again, with its bit 0 set once more. -/
theorem bit_reread {m m' : Mem} {n : Nat} (h : ∀ k < n, m k = m' k) (h0 : bit m' 0 = true)
    (hj : j < 8 * n) : bit (minixSetBit 0 m) j = bit m' j := by
  rw [minixSetBit, bit_setBit]
  split
  · next heq => rw [heq, h0]
  · exact congrArg (BitVec.getLsbD · (j % 8)) (h (j / 8) (by omega))

/-- What a mount reads again of `s`: the maps, and every file with its size, type and zones. -/
structure PageCache.Reread (sb : Sb) (s s' : PageCache) : Prop where
  dev : s'.fs.dev = s.fs.dev
  cache : ∀ ino iblock, s'.cache ino iblock = none
  zmap : ∀ j < 8 * sb.sBlocksize, bit (s'.fs.zmap 0) j = bit (s.fs.zmap 0) j
  imap : ∀ j < 8 * sb.sBlocksize, bit (s'.fs.imap 0) j = bit (s.fs.imap 0) j
  files : ∀ ino inode, s.fs.files ino = some inode →
    ∃ inode', s'.fs.files ino = some inode' ∧ inode.SameData inode'
  back : ∀ ino inode', s'.fs.files ino = some inode' →
    ∃ inode, s.fs.files ino = some inode ∧ inode'.IsFile ino ∧ inode.SameData inode'

theorem PageCache.Reread.ptr {s s' : PageCache} (r : s.Reread sb s') (ino : Nat)
    (i : Fin ZONE_PTR_IN_INODE_NUM) (p : Nat) : s'.fs.Ptr ino i p ↔ s.fs.Ptr ino i p := by
  constructor
  · rintro ⟨inode', hi', hp, hne⟩
    obtain ⟨inode, hi, -, hsame⟩ := r.back ino inode' hi'
    exact ⟨inode, hi, by rw [← hsame.zonePtr]; exact hp, hne⟩
  · rintro ⟨inode, hi, hp, hne⟩
    obtain ⟨inode', hi', hsame⟩ := r.files ino inode hi
    exact ⟨inode', hi', by rw [hsame.zonePtr]; exact hp, hne⟩

section
variable {image : Image} {menv : MkfsEnv} {s : PageCache} {env : MountEnv} {fs : MountedFs}
  (M : Mounted config sb) (hf : image.Formatted config menv)
  (hplaced : 4096 ≤ config.zoneSize ∨ config.numZones ≤ config.blockSize / sizeofInode)
include M hf hplaced

omit hf hplaced in
/-- A zone pointer fits its field of the slot. -/
theorem FileSys.Inv.zonePtr_lt {fs : FileSys} (I : fs.Inv config sb)
    {ptr : Fin ZONE_PTR_IN_INODE_NUM → Nat} (h : ∀ i, ptr i ≠ 0 → fs.Ptr ino i (ptr i))
    (i : Fin ZONE_PTR_IN_INODE_NUM) : ptr i < 2 ^ 32 := by
  by_cases h0 : ptr i = 0
  · rw [h0]
    exact Nat.two_pow_pos 32
  · have := I.ptr_lt M (h i h0)
    omega

theorem PageCache.OnDisk.reload (O : s.OnDisk config sb image) (Y : s.Synced sb)
    (hi : s.fs.files ino = some inode) (leftover : Fin ZONE_PTR_IN_INODE_NUM → Nat) :
    ∃ inode', (s.fs.dev.unbuffered.aufsInodeGet sb true leftover ino).1 = .ok inode' ∧
      inode'.IsFile ino ∧ inode.SameData inode' := by
  obtain ⟨ids, hslot⟩ := Y.inodes ino inode hi
  exact reload_file (inTable M hf hplaced (O.usesInode M hf hi).1) O.room (O.files ino inode hi).1
    (O.sound.inv.zonePtr_lt M fun _ h0 => ⟨inode, hi, rfl, h0⟩) hslot leftover

theorem PageCache.OnDisk.reread (O : s.OnDisk config sb image) (Y : s.Synced sb)
    (hsb : sb = aufsFillSb image.superBlock) (hblock : env.blockSize = sb.sBlocksize)
    (hmount : mountAufsFillSb env s.fs.dev = .ok (.ok fs))
    (leftover : Fin ZONE_PTR_IN_INODE_NUM → Nat) :
    fs.sb = sb ∧ s.Reread sb (s.remounted leftover fs) := by
  have hsbi : s.fs.dev.superBlock = sb.sbi := by
    rw [hsb]
    exact aufsSuperBlockFill_congr O.superBlock
  obtain ⟨rfl, hz, himap⟩ := mount_reads M hsbi hmount
  rw [hblock] at hz himap
  have hbs := M.reads.blocksize
  have hpos := M.blocksize_pos
  have hfiles : ∀ ino inode, s.fs.files ino = some inode →
      ∃ inode', (s.remounted leftover fs).fs.files ino = some inode' ∧ inode'.IsFile ino ∧
        inode.SameData inode' := by
    intro ino inode hi
    obtain ⟨inode', hget, hfile, hsame⟩ := O.reload M hf hplaced Y hi leftover
    refine ⟨inode', ?_, hfile, hsame⟩
    simp only [remounted, hi, Option.bind_some, hget]
    rfl
  refine ⟨rfl, rfl, fun _ _ => rfl, fun j hj => ?_, fun j hj => ?_, fun ino inode hi => ?_,
    fun ino inode' hi' => ?_⟩
  · have hblk := Y.zmap 0 (by rw [M.reads.zoneMapBlocks]; exact Nat.one_pos)
    have h0 : bit (s.fs.zmap 0) 0 = true := by
      by_contra hbit
      have := O.sound.inv.clear 0 (by omega) (Bool.eq_false_of_not_eq_true hbit)
      omega
    simp only [remounted, hz, Option.getD_some]
    exact bit_reread hblk h0 hj
  · have hblk := Y.imap 0 (by rw [M.reads.inodeMapBlocks]; exact Nat.one_pos)
    rw [M.reads.zoneMapBlocks] at hblk
    have h0 : bit (s.fs.imap 0) 0 = true := by
      by_contra hbit
      have := (hf.inodeMap 0 (by omega)).mp
        (O.imap 0 (by omega) (Bool.eq_false_of_not_eq_true hbit))
      omega
    simp only [remounted, himap, Option.getD_some]
    exact bit_reread hblk h0 hj
  · obtain ⟨inode', hi', -, hsame⟩ := hfiles ino inode hi
    exact ⟨inode', hi', hsame⟩
  · obtain ⟨inode, hi, -⟩ := Option.bind_eq_some_iff.mp hi'
    obtain ⟨inode₁, hi₁, hfile, hsame⟩ := hfiles ino inode hi
    cases hi'.symm.trans hi₁
    exact ⟨inode, hi, hfile, hsame⟩

omit hf hplaced in
/-- Mounted again, a device that has everything holds the files that it held before. -/
theorem PageCache.OnDisk.remount {s' : PageCache} (O : s.OnDisk config sb image)
    (Y : s.Synced sb) (r : s.Reread sb s') (behind : Nat → Nat) :
    s'.OnDisk config sb image ∧ ∀ k v, s.Keeps sb behind k v → s'.Keeps sb behind k v := by
  have hbs := M.reads.blocksize
  have I' : s'.fs.Inv config sb := by
    refine ⟨fun j hj hbit => ?_, fun ino inode' hi' => ?_, fun ino i p hp => ?_,
      fun ino₁ i₁ ino₂ i₂ p hp₁ hp₂ => ?_⟩
    · rw [r.zmap j hj] at hbit
      exact O.sound.inv.clear j hj hbit
    · obtain ⟨inode, hi, -⟩ := r.back ino inode' hi'
      rw [r.imap ino (O.files ino inode hi).2.1]
      exact O.sound.inv.named ino inode hi
    · obtain ⟨j, hj2, hjn, hbit, hp⟩ := O.sound.inv.owned ino i p ((r.ptr ..).mp hp)
      have hle := M.accepted.numZones_le
      exact ⟨j, hj2, hjn, by rw [r.zmap j (by omega)]; exact hbit, hp⟩
    · exact O.sound.inv.distinct _ _ _ _ p ((r.ptr ..).mp hp₁) ((r.ptr ..).mp hp₂)
  refine ⟨⟨⟨I', by rw [r.dev]; exact O.sound.zones, fun ino iblock buf hbuf => ?_⟩, ?_, ?_, ?_,
    fun j hj hbit => ?_, fun ino inode' hi' => ?_⟩, fun k v hk => ?_⟩
  · cases (r.cache ino iblock).symm.trans hbuf
  · rw [r.dev]
    exact O.room
  · rw [r.dev]
    exact O.superBlock
  · rw [r.dev]
    exact O.root
  · rw [r.imap j hj] at hbit
    exact O.imap j hj hbit
  · obtain ⟨inode, hi, hfile, -⟩ := r.back ino inode' hi'
    exact ⟨hfile, (O.files ino inode hi).2⟩
  · obtain ⟨inode, hi, hlt⟩ := hk.sized
    obtain ⟨inode', hi', hsame⟩ := r.files _ inode hi
    refine ⟨⟨inode', hi', by rw [hsame.size]; exact hlt⟩, fun buf hbuf => ?_, .inl ?_⟩
    · cases (r.cache ..).symm.trans hbuf
    · obtain ⟨b, hb, hon, hv⟩ := diskByte_eq_some_iff.mp (hk.onDevice (Y.pages _ _))
      refine diskByte_eq_some_iff.mpr
        ⟨b, (FileSys.block_of_ptr M O.sound.inv I' r.ptr).trans hb, ?_, ?_⟩
      · rw [r.dev]
        exact hon
      · rw [r.dev]
        exact hv

/-- The byte arrays after one more step: writing back and mounting change none. -/
def recordDisk (spec : Nat × Nat → Option Byte) : DiskOp × DiskOut → Nat × Nat → Option Byte
  | (.page op, .page out) => recordPage spec (op, out)
  | _ => spec

theorem PageCache.OnDisk.page (O : s.OnDisk config sb image) (S' : s'.Sound config sb)
    (hop : op.Regular) (hs : PageStep sb behind s op out s') : s'.OnDisk config sb image := by
  rcases hs.moves M O.sound hop with ⟨task, leftover, dir, mode, rfl⟩ | hmove
  · cases hs with
    | newInode hstep => exact O.newInode M S' hop.1 hop.2 hstep
  · exact O.moves M hf hplaced S' hmove

theorem DiskStep.keeps {spec : Nat × Nat → Option Byte} (hsb : sb = aufsFillSb image.superBlock)
    (O : s.OnDisk config sb image) (h : ∀ k v, spec k = some v → s.Keeps sb behind k v)
    (hs : DiskStep sb behind s op out s') :
    s'.OnDisk config sb image ∧
      ∀ k v, recordDisk spec (op, out) k = some v → s'.Keeps sb behind k v := by
  cases hs with
  | page hop hstep =>
    obtain ⟨S', hkeep⟩ := hstep.keeps M O.sound h
    exact ⟨O.page M hf hplaced S' hop hstep, hkeep⟩
  | writeInode hi _ =>
    obtain ⟨O', hkeep⟩ := O.writeInode M hf hplaced hi
    exact ⟨O', fun k v hk => hkeep k v (h k v hk)⟩
  | @writeZmap i hlt =>
    rw [M.reads.zoneMapBlocks] at hlt
    have hno : 1 ≤ 1 + i ∧ 1 + i ≤ 2 := by omega
    obtain ⟨O', hkeep⟩ := O.writeMap M hf hplaced hno.1 hno.2 _
    exact ⟨O', fun k v hk => hkeep k v (h k v hk)⟩
  | @writeImap i hlt =>
    rw [M.reads.inodeMapBlocks] at hlt
    have hno : 1 ≤ 1 + sb.sbi.asbZoneMapBlocks + i ∧ 1 + sb.sbi.asbZoneMapBlocks + i ≤ 2 := by
      rw [M.reads.zoneMapBlocks]
      omega
    obtain ⟨O', hkeep⟩ := O.writeMap M hf hplaced hno.1 hno.2 _
    exact ⟨O', fun k v hk => hkeep k v (h k v hk)⟩
  | remount Y hblock hmount =>
    obtain ⟨-, r⟩ := O.reread M hf hplaced Y hsb hblock hmount _
    obtain ⟨O', hkeep⟩ := O.remount M Y r behind
    exact ⟨O', fun k v hk => hkeep k v (h k v hk)⟩

omit hf hplaced in
/-- A read gives every byte up to `i_size`, and what is kept of them. -/
theorem PageCache.OnDisk.read {spec : Nat × Nat → Option Byte} (O : s.OnDisk config sb image)
    (h : ∀ k v, spec k = some v → s.Keeps sb behind k v)
    (hs : PageStep sb behind s (.read ino pos n) (.bytes bytes) s') :
    ∃ inode got, s.fs.files ino = some inode ∧ bytes = some got ∧
      got.length = min n (inode.iSize - pos) ∧
      ∀ i < got.length, ∀ v, spec (ino, pos + i) = some v → got[i]? = some v := by
  cases hs with
  | read hin hstep =>
    obtain ⟨-, -, inode, got, hi, hgot, hlen, hread⟩ := read_keeps M O.sound hin hstep
    exact ⟨inode, got, hi, hgot, hlen, fun i hlt v hv => hread i hlt v (h _ v hv)⟩

end

/-- Every block that is dirty in `s'` is so in `s`. -/
def PageCache.NoDirtier (s s' : PageCache) : Prop :=
  ∀ ino iblock buf, s'.cache ino iblock = some buf → buf.dirty = true →
    ∃ buf', s.cache ino iblock = some buf' ∧ buf'.dirty = true

namespace PageCache.NoDirtier

variable {s s' s'' : PageCache}

theorem refl : NoDirtier s s := fun _ _ buf hbuf hdirty => ⟨buf, hbuf, hdirty⟩

theorem trans (h : NoDirtier s s') (h' : NoDirtier s' s'') : NoDirtier s s'' := by
  intro ino iblock buf hbuf hdirty
  obtain ⟨buf', hbuf', hdirty'⟩ := h' ino iblock buf hbuf hdirty
  exact h ino iblock buf' hbuf' hdirty'

theorem putBlock (h : ∀ b ∈ buf, b.dirty = false) : NoDirtier s (s.putBlock ino iblock buf) := by
  intro ino' iblock' b hb hdirty
  rw [putBlock_cache] at hb
  split at hb
  · cases (h b hb).symm.trans hdirty
  · exact ⟨b, hb, hdirty⟩

theorem truncate : NoDirtier s (s.truncatePagecache sb ino size) := by
  intro ino' iblock b hb hdirty
  rw [truncatePagecache_cache] at hb
  split at hb
  · split at hb
    · cases hb
    · obtain ⟨b', hb', rfl⟩ := Option.map_eq_some_iff.mp hb
      exact ⟨b', hb', b'.dirty_of_truncate hdirty⟩
  · exact ⟨b, hb, hdirty⟩

theorem loadBlock (h : s.loadBlock sb behind ino iblock create = some (buf, s')) :
    NoDirtier s s' := by
  unfold PageCache.loadBlock at h
  split at h
  · cases h
    exact refl
  · obtain ⟨⟨bytes, s₁⟩, hread, h⟩ := Option.bind_eq_some_iff.mp h
    have hcache : s₁.cache = s.cache := by
      obtain ⟨⟨ret, fs⟩, -, hread⟩ := Option.bind_eq_some_iff.mp hread
      cases ret with
      | error =>
        cases hread
        rfl
      | ok =>
        simp only at hread
        split at hread <;> cases hread <;> rfl
    have hsame : NoDirtier s s₁ := fun _ _ b hb hdirty => ⟨b, by rwa [← hcache], hdirty⟩
    cases bytes with
    | none =>
      cases h
      exact hsame
    | some bytes =>
      cases h
      refine hsame.trans (putBlock ?_)
      rintro _ ⟨⟩
      rfl

theorem minixWriteFailed : NoDirtier s (s.minixWriteFailed sb ino endPos) := by
  unfold PageCache.minixWriteFailed
  split
  · exact refl
  · split
    · exact truncate
    · exact refl

theorem minixWriteBegin (h : s.minixWriteBegin sb behind ino pos len = some (buf, s')) :
    NoDirtier s s' := by
  unfold PageCache.minixWriteBegin at h
  simp only at h
  split at h
  · split at h
    · obtain ⟨⟨ret, fs⟩, -, h⟩ := Option.bind_eq_some_iff.mp h
      cases ret with
      | error =>
        cases h
        exact minixWriteFailed
      | ok =>
        cases h
        exact refl
    · obtain ⟨⟨buf', s₁⟩, hload, h⟩ := Option.bind_eq_some_iff.mp h
      cases buf' with
      | none =>
        cases h
        exact (loadBlock hload).trans minixWriteFailed
      | some =>
        cases h
        exact loadBlock hload
  · split at h
    · cases h
      exact refl
    · obtain ⟨⟨ret, fs⟩, -, h⟩ := Option.bind_eq_some_iff.mp h
      cases ret with
      | error =>
        cases h
        exact minixWriteFailed
      | ok =>
        cases h
        exact refl

end PageCache.NoDirtier

section
variable {s s' : PageCache}

end

section
variable {image : Image} {menv : MkfsEnv} {s : PageCache} (M : Mounted config sb)
  (hf : image.Formatted config menv)
  (hplaced : 4096 ≤ config.zoneSize ∨ config.numZones ≤ config.blockSize / sizeofInode)
include M hf hplaced

omit hf hplaced M in
theorem Device.writeMap_same {dev : Device} {no : Nat} {block : Mem} (hk : k < sb.sBlocksize) :
    (dev.writeMap sb no block).bytes (no * sb.sBlocksize + k) = block k := by
  have h : poke dev.bytes (no * sb.sBlocksize) (peek block 0 sb.sBlocksize)
      (no * sb.sBlocksize + k) = block (0 + k) := poke_peek hk
  rwa [Nat.zero_add] at h

omit hf hplaced M in
theorem Device.writeMap_other {dev : Device} {no : Nat} {block : Mem}
    (h : a < no * sb.sBlocksize ∨ no * sb.sBlocksize + sb.sBlocksize ≤ a) :
    (dev.writeMap sb no block).bytes a = dev.bytes a :=
  poke_outside (by rwa [peek_length])

end

end Aufs
