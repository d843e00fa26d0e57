import Aufs.Verify.Mount
import Aufs.Verify.PageCache

/-! Bytes that should read as zero: those never written (`unwritten_bytes_zero`), and those past a
size to which the file was truncated (`truncated_bytes_zero`). -/

namespace Aufs
open Bytes Word

variable {config : Configuration} {sb : Sb} {behind : Nat → Nat}

/-! ## Steps and runs -/

/-- The step has written `k`. -/
def Covers : PageOp × PageOut → Nat × Nat → Prop
  | (.write ino pos _, .written n), k => k.1 = ino ∧ pos ≤ k.2 ∧ k.2 < pos + n
  | _, _ => False

/-- The step has reduced the size of a file to `k.2` or less. -/
def CutsOff : PageOp × PageOut → Nat × Nat → Prop
  | (.setattr ino _ _, .sized _ old new), k => k.1 = ino ∧ new < old ∧ new ≤ k.2
  | _, _ => False

open PageCache

variable {s s' : PageCache}

/-- One step: under the condition on it, what was zero and is not written stays zero, and what is
cut off becomes zero. -/
theorem PageStep.readsZero (M : Mounted config sb) (I : s.fs.Inv config sb)
    (hs : PageStep sb behind s op out s') :
    s'.fs.Inv config sb ∧ (s.TakesZeroed config sb s' → s.ReducesZeroed sb behind op →
      ∀ k, s.ReadsZero sb behind k ∧ ¬Covers (op, out) k ∨ CutsOff (op, out) k →
        s'.ReadsZero sb behind k) := by
  cases hs with
  | newInode h =>
    obtain ⟨I', hdev, hblock, hfiles⟩ := FileSys.exec_newInode M I h
    refine ⟨I', fun _ _ k hk => ?_⟩
    exact (hk.resolve_right id).1.files hdev hblock
      fun ino inode hi => ⟨inode, hfiles ino inode hi, Nat.le_refl _⟩
  | write hpos hin h =>
    obtain ⟨I', hzero⟩ := write_zero M I hin h
    refine ⟨I', fun htake _ k hk => ?_⟩
    obtain ⟨z, hout⟩ := hk.resolve_right id
    exact hzero htake k z hout
  | read hin h =>
    obtain ⟨I', hzero, -⟩ := read_zero M I hin h
    exact ⟨I', fun htake _ k hk => hzero htake k (hk.resolve_right id).1⟩
  | readpage h =>
    obtain ⟨I', hzero⟩ := readpage_zero M I h
    exact ⟨I', fun htake _ k hk => hzero htake k (hk.resolve_right id).1⟩
  | writepage h =>
    obtain ⟨I', hzero⟩ := writepage_zero M I h
    exact ⟨I', fun htake _ k hk => hzero htake k (hk.resolve_right id).1⟩
  | evict h =>
    refine ⟨?_, fun _ _ k hk => evict_zero h (hk.resolve_right id).1⟩
    obtain ⟨buf, -, h⟩ := Option.bind_eq_some_iff.mp h
    obtain ⟨-, h⟩ := FileSys.guard_bind_eq_some.mp h
    cases h
    exact I
  | setattr h =>
    obtain ⟨I', hzero⟩ := setattr_zero M I h
    exact ⟨I', fun _ hred k hk => hzero hred k (hk.imp And.left id)⟩

/-- The condition on a step: the zones it takes hold zeros, and so does what it cuts off. -/
def ZeroedStep (config : Configuration) (sb : Sb) (behind : Nat → Nat) (s : PageCache) (op : PageOp)
    (out : PageOut) (s' : PageCache) : Prop :=
  PageStep sb behind s op out s' ∧ s.TakesZeroed config sb s' ∧ s.ReducesZeroed sb behind op

theorem run_inv (M : Mounted config sb) (I : s.fs.Inv config sb)
    (t : Trace (PageStep sb behind) s hist s') : s'.fs.Inv config sb := by
  induction t with
  | nil => exact I
  | snoc _ hstep ih => exact (hstep.readsZero M ih).1

/-- Along a run that does not write it, a byte stays zero. -/
theorem run_readsZero (M : Mounted config sb) (I : s.fs.Inv config sb)
    (t : Trace (ZeroedStep config sb behind) s hist s') :
    s'.fs.Inv config sb ∧ ∀ k, s.ReadsZero sb behind k → (∀ e ∈ hist, ¬Covers e k) →
      s'.ReadsZero sb behind k := by
  induction t with
  | nil => exact ⟨I, fun _ z _ => z⟩
  | snoc _ hstep ih =>
    obtain ⟨I', hzero⟩ := hstep.1.readsZero M ih.1
    refine ⟨I', fun k z hk => ?_⟩
    refine hzero hstep.2.1 hstep.2.2 k (.inl ⟨ih.2 k z fun e he => hk e ?_, hk _ ?_⟩)
    · exact List.mem_append_left _ he
    · exact List.mem_append_right _ (List.mem_singleton_self _)

/-- The file system right after mounting `image`, with nothing cached. -/
def PageCache.mount (image : Image) (config : Configuration) (dev : Device) : PageCache where
  fs := FileSys.mount image config dev
  cache := fun _ _ => none

theorem PageCache.mount_readsZero (image : Image) (dev : Device) (k : Nat × Nat) :
    (PageCache.mount image config dev).ReadsZero sb behind k := by
  refine ⟨nofun, .inl fun v hv => ?_⟩
  obtain ⟨b, hb, -⟩ := diskByte_eq_some_iff.mp hv
  cases hb

/-- A step that takes zones of zeros and reduces no size meets the condition. -/
theorem PageStep.zeroed (hs : PageStep sb behind s op out s') (htake : s.TakesZeroed config sb s')
    (hgrow : ∀ k, ¬CutsOff (op, out) k) : ZeroedStep config sb behind s op out s' := by
  refine ⟨hs, htake, ?_⟩
  cases hs with
  | @setattr ino prepared attr ret old new s' h =>
    intro inode size hi hprep hattr hle hlt o ho
    obtain ⟨inode', hi', h⟩ := Option.bind_eq_some_iff.mp h
    cases hi.symm.trans hi'
    simp only [Option.pure_def, Option.some.injEq, Prod.mk.injEq] at h
    obtain ⟨-, rfl, rfl, -⟩ := h
    refine absurd ⟨rfl, ?_, ?_⟩ (hgrow (ino, o))
    · rw [hprep, minixSetattr_reduced hattr hle hlt]
      exact hlt
    · rw [hprep, minixSetattr_reduced hattr hle hlt]
      exact ho
  | _ => trivial

/-- What a read gives in a state in which the bytes `P` of the file are zero: an error where the
block is not on the device, or all bytes up to `i_size`, zero where `P` holds. -/
def ReadResult (sb : Sb) (behind : Nat → Nat) (s s' : PageCache) (ino pos n : Nat)
    (bytes : Option (List Byte)) (P : Nat → Prop) : Prop :=
  (bytes = none → ∃ b, s'.fs.block sb behind ino (pos / sb.sBlocksize) = some b ∧
    ¬s'.fs.dev.HasBlock sb.sBlocksize b) ∧
  ∃ inode, s.fs.files ino = some inode ∧ ∀ got, bytes = some got →
    got.length = min n (inode.iSize - pos) ∧
    ∀ i < got.length, P (pos + i) → got[i]? = some 0

theorem ZeroedStep.read (M : Mounted config sb) (I : s.fs.Inv config sb)
    (hs : ZeroedStep config sb behind s (.read ino pos n) (.bytes bytes) s')
    (hzero : ∀ o, P o → s.ReadsZero sb behind (ino, o)) :
    ReadResult sb behind s s' ino pos n bytes P := by
  obtain ⟨hread, htake, -⟩ := hs
  cases hread with
  | read hin h =>
    obtain ⟨-, hkeep, hnone, inode, hi, hgot⟩ := read_zero M I hin h
    refine ⟨hnone, inode, hi, fun got hsome => ?_⟩
    obtain ⟨hlen, hbytes⟩ := hgot got hsome
    exact ⟨hlen, fun i hi hP => hbytes i hi (hkeep htake _ (hzero _ hP))⟩

/-- A step that reduces no size, and takes only zones that hold zeros. -/
def GrowingStep (config : Configuration) (sb : Sb) (behind : Nat → Nat) (s : PageCache)
    (op : PageOp) (out : PageOut) (s' : PageCache) : Prop :=
  PageStep sb behind s op out s' ∧ s.TakesZeroed config sb s' ∧ ∀ k, ¬CutsOff (op, out) k

/-- In every run of such steps from a fresh mount, a byte below `i_size` that no write has covered
reads as zero. -/
theorem unwritten_bytes_zero {deviceSize : String → Nat} {argv : List String} {env : MkfsEnv}
    {fuel : Nat} {dev : Device} {image : Image} {hist : List (PageOp × PageOut)}
    (hargs : parseArgs deviceSize argv = .ok config)
    (himage : mkfs env fuel config dev = some image)
    (hsb : sb = aufsFillSb image.superBlock)
    (hfit : config.numZones * (config.zoneSize / config.blockSize) + sb.sbi.dataBase < 2 ^ 31)
    (t : Trace (GrowingStep config sb behind) (.mount image config dev) hist s)
    (hread : GrowingStep config sb behind s (.read ino pos n) (.bytes bytes) s') :
    ReadResult sb behind s s' ino pos n bytes fun o => ∀ e ∈ hist, ¬Covers e (ino, o) := by
  have H := accepted_of_parseArgs hargs
  have hf := mkfs_formatted H himage
  have M : Mounted config sb := ⟨H, hsb ▸ aufsFillSb_reads H hf, hfit⟩
  have t' : Trace (ZeroedStep config sb behind) (.mount image config dev) hist s :=
    t.mono fun hs => hs.1.zeroed hs.2.1 hs.2.2
  obtain ⟨I, hzero⟩ := run_readsZero M (.mount M hf) t'
  exact (hread.1.zeroed hread.2.1 hread.2.2).read M I fun o ho =>
    hzero _ (PageCache.mount_readsZero image dev _) ho

/-- In every run from a fresh mount in which a size is reduced to `new`: if the device holds zeros
in what this and later steps cut off and in the zones they take, then every byte from `new` on that
was not written since reads as zero. -/
theorem truncated_bytes_zero {deviceSize : String → Nat} {argv : List String} {env : MkfsEnv}
    {fuel : Nat} {dev : Device} {image : Image} {hist hist' : List (PageOp × PageOut)}
    {s₁ s₂ : PageCache}
    (hargs : parseArgs deviceSize argv = .ok config)
    (himage : mkfs env fuel config dev = some image)
    (hsb : sb = aufsFillSb image.superBlock)
    (hfit : config.numZones * (config.zoneSize / config.blockSize) + sb.sbi.dataBase < 2 ^ 31)
    (t : Trace (PageStep sb behind) (.mount image config dev) hist s₁)
    (hcut : ZeroedStep config sb behind s₁ (.setattr ino prepared attr) (.sized ret old new) s₂)
    (hlt : new < old)
    (t' : Trace (ZeroedStep config sb behind) s₂ hist' s)
    (hread : ZeroedStep config sb behind s (.read ino pos n) (.bytes bytes) s') :
    ReadResult sb behind s s' ino pos n bytes fun o =>
      new ≤ o ∧ ∀ e ∈ hist', ¬Covers e (ino, o) := by
  have H := accepted_of_parseArgs hargs
  have hf := mkfs_formatted H himage
  have M : Mounted config sb := ⟨H, hsb ▸ aufsFillSb_reads H hf, hfit⟩
  obtain ⟨I₂, hzero₂⟩ := hcut.1.readsZero M (run_inv M (.mount M hf) t)
  obtain ⟨I, hzero⟩ := run_readsZero M I₂ t'
  refine hread.read M I fun o ho => hzero _ ?_ ho.2
  exact hzero₂ hcut.2.1 hcut.2.2 _ (.inr ⟨rfl, hlt, ho.1⟩)

/-! ## Files of one byte -/

def resizeAttr (size : Nat) : Iattr :=
  { iaSize := some size, iaMode := none, iaUid := none, iaGid := none, iaCtime := none }

theorem setattr_resize (sb : Sb) {inode : AufsInode} (hi : s.fs.files ino = some inode)
    (hne : size ≠ inode.iSize) (hle : size ≤ MAX_NON_LFS) :
    ∃ inode' s', s.setattr sb ino (.ok ()) (resizeAttr size) =
        some (.ok (), inode.iSize, size, s') ∧
      s'.fs = s.fs.setInode ino inode' ∧ inode'.aiZonePtr = inode.aiZonePtr ∧
      inode'.iSize = size ∧ s'.cache ino 0 =
        if size = 0 then none else (s.cache ino 0).map (·.truncate 0 size) := by
  obtain ⟨inode', hset, hptr, hsize⟩ : ∃ inode', minixSetattr (.ok ()) inode (resizeAttr size) =
      (.ok (), inode') ∧ inode'.aiZonePtr = inode.aiZonePtr ∧ inode'.iSize = size := by
    simp only [minixSetattr, setattrSize, resizeAttr, inodeNewsizeOk, if_pos hne,
      if_neg (Nat.not_lt.mpr hle)]
    exact ⟨_, rfl, rfl, rfl⟩
  refine ⟨inode', truncatePagecache sb { s with fs := s.fs.setInode ino inode' } ino size, ?_, rfl,
    hptr, hsize, ?_⟩
  · rw [setattr, hi, Option.bind_eq_bind, Option.bind_some, hset]
    simp only [hsize, if_pos hne]
    rfl
  · simp only [truncatePagecache_cache, if_true, Nat.zero_mul, Nat.zero_div, Nat.le_zero]

/-- A read of a file in one block, when this is not cached. -/
theorem read_first {inode : AufsInode} {fs : FileSys} (hi : s.fs.files ino = some inode)
    (hpos : 0 < inode.iSize) (hle : inode.iSize ≤ sb.sBlocksize) (hcache : s.cache ino 0 = none)
    (hget : s.fs.getBlock sb behind ino 0 false = some (.ok b, fs))
    (hon : fs.dev.HasBlock sb.sBlocksize b) :
    ∃ s', PageStep sb behind s (.read ino 0 inode.iSize)
        (.bytes (some (peek (diskBlock sb fs b).bytes 0 inode.iSize))) s' ∧
      s'.fs = fs := by
  have hin : 0 % sb.sBlocksize + inode.iSize ≤ sb.sBlocksize := by
    rw [Nat.zero_mod, Nat.zero_add]
    exact hle
  have hread : s.read sb behind ino 0 inode.iSize =
      some (some (peek (diskBlock sb fs b).bytes 0 inode.iSize),
        PageCache.putBlock { s with fs } ino 0 (some (diskBlock sb fs b))) := by
    rw [PageCache.read, hi, Option.bind_eq_bind, Option.bind_some, Nat.sub_zero, Nat.min_self,
      if_neg (Nat.ne_of_gt hpos), Nat.zero_div, Nat.zero_mod, loadBlock_uncached hcache hget hon]
    rfl
  exact ⟨_, .read hin hread, rfl⟩

theorem diskBlock_first {fs : FileSys} :
    (diskBlock sb fs b).bytes 0 = fs.dev.bytes (b * sb.sBlocksize) := rfl

/-- File 2, of `size` bytes, has no zones, and no file has been written since mounting. -/
structure EmptyFile (image : Image) (config : Configuration) (dev : Device) (size : Nat)
    (s : PageCache) : Prop where
  file : ∃ inode, s.fs.files 2 = some inode ∧ inode.iSize = size ∧ ∀ i, inode.aiZonePtr i = 0
  zmap : s.fs.zmap = fun _ => minixSetBit 0 image.zoneMap
  dev : s.fs.dev = image.device config dev
  cache : s.cache 2 0 = none

def createOp : PageOp := .newInode ⟨0, 0, 0⟩ (fun _ => 0) (newInode fun _ => 0) S_IFREG

def resizeOp (size : Nat) : PageOp := .setattr 2 (.ok ()) (resizeAttr size)

section
variable {image : Image} {env : MkfsEnv} {dev : Device}

theorem createOp_step (M : Mounted config sb) (hf : image.Formatted config env)
    (behind : Nat → Nat) (dev : Device) :
    ∃ s, PageStep sb behind (.mount image config dev) createOp (.created (.ok 2)) s ∧
      EmptyFile image config dev 0 s ∧ s.fs.zmap = (PageCache.mount image config dev).fs.zmap := by
  have hstep := FileSys.step_newInode_mount M.accepted M.reads hf behind dev ⟨0, 0, 0⟩ (fun _ => 0)
    (newInode fun _ => 0) S_IFREG
  exact ⟨_, .newInode hstep, ⟨⟨_, rfl, rfl, fun _ => rfl⟩, rfl, rfl, rfl⟩, rfl⟩

theorem EmptyFile.resize (sb : Sb) (behind : Nat → Nat) (h : EmptyFile image config dev old s)
    (hne : new ≠ old) (hle : new ≤ MAX_NON_LFS) :
    ∃ s', PageStep sb behind s (resizeOp new) (.sized (.ok ()) old new) s' ∧
      EmptyFile image config dev new s' ∧ s'.fs.zmap = s.fs.zmap := by
  obtain ⟨inode, hi, rfl, hzero⟩ := h.file
  obtain ⟨inode', s', hset, hfs, hptr, hsize, hcache⟩ := setattr_resize sb hi hne hle
  rw [h.cache, Option.map_none, ite_self] at hcache
  refine ⟨s', .setattr hset, ⟨⟨inode', ?_, hsize, ?_⟩, ?_, ?_, hcache⟩, ?_⟩
  · rw [hfs]
    exact FileSys.setInode_files_self
  · rw [hptr]
    exact hzero
  · rw [hfs]
    exact h.zmap
  · rw [hfs]
    exact h.dev
  · rw [hfs]
    rfl

/-- The first read takes zone 2 and shows what the device holds there. -/
theorem EmptyFile.read (M : Mounted config sb) (hf : image.Formatted config env)
    (behind : Nat → Nat) (h : EmptyFile image config dev 1 s)
    (hon : dev.HasBlock sb.sBlocksize (sb.zoneStart config 2)) :
    ∃ s', PageStep sb behind s (.read 2 0 1)
        (.bytes (some [(image.device config dev).bytes (sb.zoneStart config 2 * sb.sBlocksize)]))
        s' ∧
      ∀ j, bit (s'.fs.zmap 0) j = if j = 2 then true else bit (s.fs.zmap 0) j := by
  obtain ⟨inode, hi, hsize, hzero⟩ := h.file
  have hget := FileSys.getBlock_first M hf hi (hzero _) h.zmap behind false
  obtain ⟨s', hread, hfs⟩ := read_first hi (by omega) (by rw [hsize]; exact M.blocksize_pos)
    h.cache hget (by
      change s.fs.dev.HasBlock _ _
      rw [h.dev]
      exact hon)
  rw [hsize] at hread
  refine ⟨s', ?_, fun j => ?_⟩
  · rw [← h.dev]
    exact hread
  · rw [hfs]
    exact FileSys.bit_takeZone

/-- What mkfs leaves alone: the blocks from zone 2 on. -/
theorem device_zone (M : Mounted config sb) (hj : 2 ≤ j) (hb : sb.zoneStart config j ≤ b)
    (hon : dev.HasBlock sb.sBlocksize b) (hr : r < sb.sBlocksize) :
    (image.device config dev).bytes (b * sb.sBlocksize + r) =
      dev.bytes (b * sb.sBlocksize + r) := by
  have hpos := M.accepted.blocksPerZone_pos
  have hge := M.zoneStart_ge hj
  rw [Device.HasBlock, Nat.add_mul, Nat.one_mul] at hon
  rw [M.reads.blocksize] at hon hr ⊢
  rw [device_bytes M.accepted image dev hr (by omega), if_neg (by omega), if_neg (by omega),
    if_neg (by omega), if_neg (by omega), if_neg (by omega)]

/-- On a blank device that zone holds zeros. -/
theorem EmptyFile.takes_blank (M : Mounted config sb)
    (h : EmptyFile image config (blankDevice n) size s)
    (hbits : ∀ j, bit (s'.fs.zmap 0) j = if j = 2 then true else bit (s.fs.zmap 0) j) :
    s.TakesZeroed config sb s' := by
  intro j hclear hset b hge _ hon r hr
  have hj : j = 2 := by
    by_contra hne
    rw [hbits, if_neg hne, hclear] at hset
    cases hset
  subst hj
  rw [h.dev] at hon ⊢
  exact device_zone M (Nat.le_refl 2) hge hon hr

end

/-! ## A file with one block -/

/-- File 2, of `size` bytes, has block `b` of the device. -/
structure MappedFile (config : Configuration) (sb : Sb) (behind : Nat → Nat) (b size : Nat)
    (s : PageCache) : Prop where
  inv : s.fs.Inv config sb
  file : ∃ inode, s.fs.files 2 = some inode ∧ inode.iSize = size
  block : s.fs.block sb behind 2 0 = some b
  onDevice : s.fs.dev.HasBlock sb.sBlocksize b

/-- The first bytes written to an empty file stay in the cache. -/
theorem EmptyFile.write {image : Image} {env : MkfsEnv} {dev : Device} (M : Mounted config sb)
    (hf : image.Formatted config env) (I : s.fs.Inv config sb) (behind : Nat → Nat)
    (h : EmptyFile image config dev 0 s)
    (hon : dev.HasBlock sb.sBlocksize (sb.zoneStart config 2)) {chunk : List Byte}
    (hpos : 0 < chunk.length) (hlt : chunk.length < sb.sBlocksize) :
    ∃ s' buf, PageStep sb behind s (.write 2 0 chunk) (.written chunk.length) s' ∧
      MappedFile config sb behind (sb.zoneStart config 2) chunk.length s' ∧
      s'.cache 2 0 = some buf ∧ buf.dirty = true ∧
      (∀ i, (h : i < chunk.length) → buf.bytes i = chunk[i]) ∧
      ∀ j, bit (s'.fs.zmap 0) j = if j = 2 then true else bit (s.fs.zmap 0) j := by
  obtain ⟨inode, hi, hsize, hzero⟩ := h.file
  have hget := FileSys.getBlock_first M hf hi (hzero _) h.zmap behind true
  have hi' : (FileSys.takeZone config sb s.fs 2 inode ⟨_, firstBlock_idx config⟩ 2).files 2 =
      some (inode.setZonePtr ⟨_, firstBlock_idx config⟩ (sb.zoneStart config 2)) :=
    FileSys.takeZone_files_self
  have hbits : ∀ j, bit ((FileSys.takeZone config sb s.fs 2 inode ⟨_, firstBlock_idx config⟩
      2).zmap 0) j = if j = 2 then true else bit (s.fs.zmap 0) j := fun j => FileSys.bit_takeZone
  generalize FileSys.takeZone .. = fs at hget hi' hbits
  generalize sb.zoneStart config 2 = b at hget hi' hon ⊢
  obtain ⟨I', -, hdev, _, hret, hb⟩ := FileSys.getBlock_spec M I hget
  cases hret
  replace hon : fs.dev.HasBlock sb.sBlocksize b := by
    rw [hdev, h.dev]
    exact hon
  obtain ⟨s', hwrite, hfs, hcache⟩ : ∃ s', s.write sb behind 2 0 chunk = some (chunk.length, s') ∧
      s'.fs = fs.writeEnd 2 0 chunk.length ∧ s'.cache 2 0 =
        some { diskBlock sb fs b with
          bytes := poke (diskBlock sb fs b).bytes 0 chunk, dirty := true } := by
    simp only [PageCache.write, minixWriteBegin, Nat.zero_div, Nat.zero_mod, h.cache,
      if_neg (Nat.ne_of_lt hlt), loadBlock_uncached h.cache hget hon, Option.bind_eq_bind,
      Option.bind_some, Option.pure_def]
    exact ⟨_, rfl, rfl, putBlock_cache_self⟩
  have hin : 0 % sb.sBlocksize + chunk.length ≤ sb.sBlocksize := by
    rw [Nat.zero_mod, Nat.zero_add]
    exact Nat.le_of_lt hlt
  have hstep : PageStep sb behind s (.write 2 0 chunk) (.written chunk.length) s' :=
    .write hpos hin hwrite
  have hblock : (fs.writeEnd 2 0 chunk.length).block sb behind 2 0 = some b :=
    ((writeEnd_files M I').2.1 2 0).trans hb
  have hfile : (fs.writeEnd 2 0 chunk.length).files 2 = some (genericWriteEnd
      (inode.setZonePtr ⟨_, firstBlock_idx config⟩ b) 0 chunk.length) := by
    rw [writeEnd_eq hi']
    exact FileSys.setInode_files_self
  have hbyte : ∀ i, (hi : i < chunk.length) →
      poke (diskBlock sb fs b).bytes 0 chunk i = chunk[i] := by
    intro i hi
    have hin : poke (diskBlock sb fs b).bytes 0 chunk (0 + i) = chunk[i] := poke_inside hi
    rwa [Nat.zero_add] at hin
  rw [← hfs] at hfile hblock
  refine ⟨s', _, hstep, ⟨(hstep.readsZero M I).1, ⟨_, hfile, ?_⟩, hblock, ?_⟩, hcache, rfl, hbyte,
    ?_⟩
  · rw [FileSys.genericWriteEnd_iSize, AufsInode.setZonePtr_iSize, hsize]
    omega
  · rw [hfs]
    exact hon
  · rw [hfs]
    exact hbits

namespace MappedFile

/-- Cut off in the cache, what was written will not reach the device. -/
theorem reduces (h : MappedFile config sb behind b size s) (hbuf : s.cache 2 0 = some buf)
    (hdirty : buf.dirty = true) (hpos : 0 < new) (hle : size ≤ sb.sBlocksize)
    (hzero : ∀ o, size ≤ o → s.ReadsZero sb behind (2, o)) :
    s.ReducesZeroed sb behind (resizeOp new) := by
  intro inode new' hi _ hattr _ _ o _
  obtain rfl : new = new' := Option.some.inj hattr
  by_cases hblock : o / sb.sBlocksize = 0
  · refine .inr ⟨buf, ?_, hdirty, ?_⟩
    · rw [hblock]
      exact hbuf
    · rw [hblock, Nat.zero_mul]
      exact hpos
  · have hmul : 1 * sb.sBlocksize ≤ o / sb.sBlocksize * sb.sBlocksize :=
      Nat.mul_le_mul_right _ (Nat.pos_of_ne_zero hblock)
    have hdiv : o / sb.sBlocksize * sb.sBlocksize ≤ o := Nat.div_mul_le_self ..
    rcases (hzero o (by omega)).disk with hdisk | ⟨inode', hi', hwritten⟩
    · exact .inl hdisk
    · obtain ⟨inode'', hi'', hsize⟩ := h.file
      cases hi'.symm.trans hi''
      have hlt : o / sb.sBlocksize * sb.sBlocksize < inode'.iSize := hwritten.start_lt
      omega

/-- Write-back puts the first cached byte on the device. -/
theorem writepage (M : Mounted config sb) (h : MappedFile config sb behind b size s)
    (hpos : 0 < size) (hbuf : s.cache 2 0 = some buf) (hdirty : buf.dirty = true) :
    ∃ s' buf', PageStep sb behind s (.writepage 2 0) .done s' ∧
      MappedFile config sb behind b size s' ∧ s'.fs.zmap = s.fs.zmap ∧
      s'.fs.dev.bytes (b * sb.sBlocksize) = buf.bytes 0 ∧ s'.cache 2 0 = some buf' ∧
      buf'.dirty = false := by
  obtain ⟨inode, hi, hsize⟩ := h.file
  have hget := FileSys.getBlock_of_block M h.inv h.block true
  have hlt : 0 * sb.sBlocksize < inode.iSize := by
    rw [hsize, Nat.zero_mul]
    exact hpos
  obtain ⟨s', hwrite, hfs, hcache⟩ : ∃ s', s.writepage sb behind 2 0 = some s' ∧
      s'.fs = { s.fs with
        dev := s.fs.dev.write (b * sb.sBlocksize)
          (peek (buf.zeroFrom (inode.iSize - 0 * sb.sBlocksize)).bytes 0 sb.sBlocksize) } ∧
      s'.cache 2 0 = some
        { buf.zeroFrom (inode.iSize - 0 * sb.sBlocksize) with dirty := false } := by
    simp only [PageCache.writepage, hi, hbuf, hdirty, hget, if_pos hlt, if_pos h.onDevice, guard,
      if_true, Option.bind_eq_bind, Option.bind_some, Option.pure_def]
    exact ⟨_, rfl, rfl, putBlock_cache_self⟩
  have hstep : PageStep sb behind s (.writepage 2 0) .done s' := .writepage hwrite
  have hbyte : s'.fs.dev.bytes (b * sb.sBlocksize + 0) = buf.bytes 0 := by
    rw [hfs]
    refine (poke_peek M.blocksize_pos).trans (if_pos ?_)
    rw [hsize, Nat.zero_mul]
    exact hpos
  refine ⟨s', _, hstep, ⟨(hstep.readsZero M h.inv).1, ⟨inode, ?_, hsize⟩, ?_, ?_⟩, by rw [hfs],
    hbyte, hcache, rfl⟩
  · rw [hfs]
    exact hi
  · rw [hfs]
    exact h.block
  · rw [hfs]
    exact h.onDevice

/-- A clean block leaves the cache. -/
theorem evict (h : MappedFile config sb behind b size s) (hbuf : s.cache 2 0 = some buf)
    (hclean : buf.dirty = false) :
    ∃ s', PageStep sb behind s (.evict 2 0) .done s' ∧ MappedFile config sb behind b size s' ∧
      s'.fs = s.fs ∧ s'.cache 2 0 = none := by
  have hevict : s.evict 2 0 = some (s.putBlock 2 0 none) := by
    simp only [PageCache.evict, hbuf, hclean, guard, if_true, Option.bind_eq_bind,
      Option.bind_some, Option.pure_def]
  exact ⟨_, .evict hevict, ⟨h.inv, h.file, h.block, h.onDevice⟩, rfl, putBlock_cache_self⟩

/-- A change of the size keeps the block and what the device holds. -/
theorem resize (M : Mounted config sb) (h : MappedFile config sb behind b old s) (hne : new ≠ old)
    (hle : new ≤ MAX_NON_LFS) :
    ∃ s', PageStep sb behind s (resizeOp new) (.sized (.ok ()) old new) s' ∧
      MappedFile config sb behind b new s' ∧ s'.fs.dev = s.fs.dev ∧ s'.fs.zmap = s.fs.zmap ∧
      s'.cache 2 0 = if new = 0 then none else (s.cache 2 0).map (·.truncate 0 new) := by
  obtain ⟨inode, hi, rfl⟩ := h.file
  obtain ⟨inode', s', hset, hfs, hptr, hsize, hcache⟩ := setattr_resize sb hi hne hle
  have hstep : PageStep sb behind s (resizeOp new) (.sized (.ok ()) inode.iSize new) s' :=
    .setattr hset
  refine ⟨s', hstep, ⟨(hstep.readsZero M h.inv).1, ⟨inode', ?_, hsize⟩, ?_, ?_⟩, ?_, ?_, hcache⟩
  · rw [hfs]
    exact FileSys.setInode_files_self
  · rw [hfs, FileSys.block_setInode hi hptr M h.inv]
    exact h.block
  · rw [hfs]
    exact h.onDevice
  · rw [hfs]
    rfl
  · rw [hfs]
    rfl

/-- A read without the cache shows what the device holds. -/
theorem read (M : Mounted config sb) (h : MappedFile config sb behind b size s) (hpos : 0 < size)
    (hle : size ≤ sb.sBlocksize) (hcache : s.cache 2 0 = none) :
    ∃ s', PageStep sb behind s (.read 2 0 size)
        (.bytes (some (peek (diskBlock sb s.fs b).bytes 0 size))) s' ∧
      s'.fs = s.fs := by
  obtain ⟨inode, hi, rfl⟩ := h.file
  exact read_first hi hpos hle hcache (FileSys.getBlock_of_block M h.inv h.block false) h.onDevice

end MappedFile

/-! ## Runs on eight zones -/

/-- A new file, extended to one byte. -/
theorem exists_extended (behind : Nat → Nat) (dev : Device) :
    ∃ (image : Image) (s : PageCache), mkfs rootEnv 1 eightZones dev = some image ∧
      image.Formatted eightZones rootEnv ∧ Mounted eightZones (aufsFillSb image.superBlock) ∧
      Trace (GrowingStep eightZones (aufsFillSb image.superBlock) behind)
        (.mount image eightZones dev)
        [(createOp, .created (.ok 2)), (resizeOp 1, .sized (.ok ()) 0 1)] s ∧
      EmptyFile image eightZones dev 1 s := by
  have H := accepted_of_parseArgs eightZones_args
  obtain ⟨image, himage, hf, R⟩ := exists_image H rootEnv dev
  have M : Mounted eightZones (aufsFillSb image.superBlock) := ⟨H, R, eightZones_fit R⟩
  obtain ⟨s₁, hcreate, h₁, hz₁⟩ := createOp_step M hf behind dev
  obtain ⟨s₂, hresize, h₂, hz₂⟩ := h₁.resize (aufsFillSb image.superBlock) behind
    Nat.one_ne_zero (by decide)
  have hgrow₁ := (⟨hcreate, .of_zmap hz₁, fun _ => id⟩ : GrowingStep eightZones ..)
  have hgrow₂ :=
    (⟨hresize, .of_zmap hz₂, fun k h => absurd h.2.1 (by decide)⟩ : GrowingStep eightZones ..)
  exact ⟨image, s₂, himage, hf, M, (Trace.single hgrow₁).snoc hgrow₂, h₂⟩

/-- On a blank device its byte reads as zero. -/
theorem unwritten_bytes_zero_eightZones :
    ∃ image s v s', mkfs rootEnv 1 eightZones (blankDevice (2 ^ 23)) = some image ∧
      Trace (GrowingStep eightZones (aufsFillSb image.superBlock) fun _ => 0)
        (.mount image eightZones (blankDevice (2 ^ 23)))
        [(createOp, .created (.ok 2)), (resizeOp 1, .sized (.ok ()) 0 1)] s ∧
      GrowingStep eightZones (aufsFillSb image.superBlock) (fun _ => 0) s (.read 2 0 1)
        (.bytes (some [v])) s' ∧
      v = 0 := by
  obtain ⟨image, s, himage, hf, M, t, h⟩ := exists_extended (fun _ => 0) (blankDevice (2 ^ 23))
  obtain ⟨s', hstep, hbits⟩ := h.read M hf (fun _ => 0) (eightZones_onDevice M.reads rfl)
  have hread := (⟨hstep, h.takes_blank M hbits, fun _ => id⟩ : GrowingStep eightZones ..)
  refine ⟨image, s, _, s', himage, t, hread, ?_⟩
  obtain ⟨-, inode, -, hgot⟩ := unwritten_bytes_zero eightZones_args himage rfl M.fit t hread
  obtain ⟨-, hzero⟩ := hgot _ rfl
  refine Option.some.inj (hzero 0 Nat.zero_lt_one ?_)
  simp [createOp, resizeOp, Covers]

/-- A device that held something before mkfs. -/
def usedDevice : Device := { size := 2 ^ 23, bytes := fun _ => 255 }

/-- There it is what the device held: no write and no size reduction has happened. -/
theorem stale_bytes_read :
    ∃ image s s', mkfs rootEnv 1 eightZones usedDevice = some image ∧
      Trace (PageStep (aufsFillSb image.superBlock) fun _ => 0) (.mount image eightZones usedDevice)
        [(createOp, .created (.ok 2)), (resizeOp 1, .sized (.ok ()) 0 1)] s ∧
      PageStep (aufsFillSb image.superBlock) (fun _ => 0) s (.read 2 0 1)
        (.bytes (some [255])) s' := by
  obtain ⟨image, s, himage, hf, M, t, h⟩ := exists_extended (fun _ => 0) usedDevice
  have hon : usedDevice.HasBlock _ _ := eightZones_onDevice M.reads rfl
  obtain ⟨s', hstep, -⟩ := h.read M hf (fun _ => 0) hon
  rw [← Nat.add_zero (_ * _), device_zone M (Nat.le_refl 2) (Nat.le_refl _) hon M.blocksize_pos]
    at hstep
  exact ⟨image, s, s', himage, t.mono And.left, hstep⟩

/-- Two bytes are written, and the file is cut to one while they are only in the cache. Written
back, extended again and read from the device, the second byte is zero. -/
theorem truncated_bytes_zero_eightZones :
    ∃ image s₁ s₂ s v s', mkfs rootEnv 1 eightZones (blankDevice (2 ^ 23)) = some image ∧
      Trace (PageStep (aufsFillSb image.superBlock) fun _ => 0)
        (.mount image eightZones (blankDevice (2 ^ 23)))
        [(createOp, .created (.ok 2)), (.write 2 0 [7#8, 9#8], .written 2)] s₁ ∧
      ZeroedStep eightZones (aufsFillSb image.superBlock) (fun _ => 0) s₁ (resizeOp 1)
        (.sized (.ok ()) 2 1) s₂ ∧
      Trace (ZeroedStep eightZones (aufsFillSb image.superBlock) fun _ => 0) s₂
        [(.writepage 2 0, .done), (resizeOp 2, .sized (.ok ()) 1 2), (.evict 2 0, .done)] s ∧
      ZeroedStep eightZones (aufsFillSb image.superBlock) (fun _ => 0) s (.read 2 0 2)
        (.bytes (some [7#8, v])) s' ∧
      v = 0 := by
  have H := accepted_of_parseArgs eightZones_args
  obtain ⟨image, himage, hf, R⟩ := exists_image H rootEnv (blankDevice (2 ^ 23))
  have M : Mounted eightZones (aufsFillSb image.superBlock) := ⟨H, R, eightZones_fit R⟩
  have hbs : (aufsFillSb image.superBlock).sBlocksize = 4096 := R.blocksize
  have I₀ : FileSys.Inv eightZones _ (FileSys.mount image eightZones (blankDevice (2 ^ 23))) :=
    .mount M hf
  obtain ⟨s₀, hcreate, h₀, hz₀⟩ := createOp_step M hf (fun _ => 0) (blankDevice (2 ^ 23))
  obtain ⟨I, -⟩ := hcreate.readsZero M I₀
  obtain ⟨s₁, buf, hwrite, h₁, hbuf, hdirty, hbytes, hbits⟩ := h₀.write M hf I (fun _ => 0)
    (eightZones_onDevice R rfl) (show 0 < [7#8, 9#8].length from Nat.zero_lt_two)
    (by rw [hbs]; decide)
  have t₁ := (Trace.single (hcreate.zeroed (.of_zmap hz₀) fun _ => id)).snoc
    (hwrite.zeroed (h₀.takes_blank M hbits) fun _ => id)
  have hzero : ∀ o, 2 ≤ o → s₁.ReadsZero (aufsFillSb image.superBlock) (fun _ => 0) (2, o) := by
    intro o ho
    refine (run_readsZero M I₀ t₁).2 _ (PageCache.mount_readsZero image _ _) ?_
    simp [createOp, Covers]
    omega
  obtain ⟨s₂, hcut, h₂, -, hz₂, hcache₂⟩ :=
    h₁.resize M (show 1 ≠ 2 by decide) (show 1 ≤ MAX_NON_LFS by decide)
  have hcut' : ZeroedStep eightZones (aufsFillSb image.superBlock) (fun _ => 0) s₁ _ _ s₂ :=
    ⟨hcut, .of_zmap hz₂, h₁.reduces hbuf hdirty Nat.zero_lt_one (by rw [hbs]; decide) hzero⟩
  rw [if_neg Nat.one_ne_zero, hbuf, Option.map_some] at hcache₂
  obtain ⟨s₃, buf', hback, h₃, hz₃, hdisk, hbuf', hclean⟩ :=
    h₂.writepage M Nat.zero_lt_one hcache₂ hdirty
  obtain ⟨s₄, hgrow, h₄, hdev₄, hz₄, hcache₄⟩ :=
    h₃.resize M (show 2 ≠ 1 by decide) (show 2 ≤ MAX_NON_LFS by decide)
  rw [if_neg two_ne_zero, hbuf', Option.map_some] at hcache₄
  have hclean' : (buf'.truncate 0 2).dirty = false := by
    rw [CachedBlock.truncate_of_lt _ Nat.zero_lt_two]
    exact hclean
  obtain ⟨s, hevict, h, hfs, hcache⟩ := h₄.evict hcache₄ hclean'
  obtain ⟨s', hread, hfs'⟩ := h.read M Nat.zero_lt_two (by rw [hbs]; decide) hcache
  have hback' : ZeroedStep eightZones _ _ _ _ _ _ := hback.zeroed (.of_zmap hz₃) fun _ => id
  have hgrow' : ZeroedStep eightZones _ _ _ _ _ _ :=
    hgrow.zeroed (.of_zmap hz₄) fun k h => absurd h.2.1 (by decide)
  have hevict' : ZeroedStep eightZones _ _ _ _ _ _ :=
    hevict.zeroed (.of_zmap (congrArg FileSys.zmap hfs)) fun _ => id
  have t₂ := ((Trace.single hback').snoc hgrow').snoc hevict'
  have hread' : ZeroedStep eightZones _ _ _ _ _ _ :=
    hread.zeroed (.of_zmap (congrArg FileSys.zmap hfs')) fun _ => id
  rw [peek_succ, diskBlock_first, hfs, hdev₄, hdisk, CachedBlock.truncate_bytes] at hread'
  have hseven : (buf.zeroFrom (1 - 0)).bytes 0 = 7#8 := hbytes 0 Nat.zero_lt_two
  rw [hseven] at hread'
  refine ⟨image, s₁, s₂, s, _, s', himage, t₁.mono And.left, hcut', t₂, hread', ?_⟩
  obtain ⟨-, inode, -, hgot⟩ := truncated_bytes_zero eightZones_args himage rfl M.fit
    (t₁.mono And.left) hcut' (by decide) t₂ hread'
  obtain ⟨-, hlast⟩ := hgot _ rfl
  refine Option.some.inj (hlast 1 Nat.one_lt_two ⟨Nat.le_refl 1, ?_⟩)
  simp [resizeOp, Covers]

/-- Truncated to nothing and extended again, a file of one byte that was written back shows that
byte: no write has happened since the reduction. -/
theorem truncated_bytes_back :
    ∃ image s₁ s₂ s s', mkfs rootEnv 1 eightZones (blankDevice (2 ^ 23)) = some image ∧
      Trace (PageStep (aufsFillSb image.superBlock) fun _ => 0)
        (.mount image eightZones (blankDevice (2 ^ 23)))
        [(createOp, .created (.ok 2)), (.write 2 0 [7#8], .written 1), (.writepage 2 0, .done)] s₁ ∧
      PageStep (aufsFillSb image.superBlock) (fun _ => 0) s₁ (resizeOp 0) (.sized (.ok ()) 1 0) s₂ ∧
      Trace (PageStep (aufsFillSb image.superBlock) fun _ => 0) s₂
        [(resizeOp 1, .sized (.ok ()) 0 1)] s ∧
      PageStep (aufsFillSb image.superBlock) (fun _ => 0) s (.read 2 0 1)
        (.bytes (some [7#8])) s' := by
  have H := accepted_of_parseArgs eightZones_args
  obtain ⟨image, himage, hf, R⟩ := exists_image H rootEnv (blankDevice (2 ^ 23))
  have M : Mounted eightZones (aufsFillSb image.superBlock) := ⟨H, R, eightZones_fit R⟩
  obtain ⟨s₁, hcreate, h₁, -⟩ := createOp_step M hf (fun _ => 0) (blankDevice (2 ^ 23))
  obtain ⟨I₁, -⟩ := hcreate.readsZero M (.mount M hf)
  have hbs : (aufsFillSb image.superBlock).sBlocksize = 4096 := R.blocksize
  obtain ⟨s₂, buf, hwrite, h₂, hbuf, hdirty, hbytes, -⟩ := h₁.write M hf I₁ (fun _ => 0)
    (eightZones_onDevice R rfl) (show 0 < [7#8].length from Nat.zero_lt_one) (by rw [hbs]; decide)
  obtain ⟨s₃, -, hback, h₃, -, hdisk, -⟩ := h₂.writepage M Nat.zero_lt_one hbuf hdirty
  obtain ⟨s₄, hcut, h₄, hdev₄, -, hcache₄⟩ := h₃.resize M Nat.zero_ne_one (Nat.zero_le _)
  obtain ⟨s₅, hgrow, h₅, hdev₅, -, hcache₅⟩ := h₄.resize M Nat.one_ne_zero (by decide)
  rw [hcache₄] at hcache₅
  obtain ⟨s₆, hread, -⟩ := h₅.read M Nat.zero_lt_one (by omega) hcache₅
  rw [peek_succ, diskBlock_first, hdev₅, hdev₄, hdisk, hbytes 0 Nat.zero_lt_one] at hread
  exact ⟨image, s₃, s₄, s₅, s₆, himage, ((Trace.single hcreate).snoc hwrite).snoc hback, hcut,
    .single hgrow, hread⟩

end Aufs
