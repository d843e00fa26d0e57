import Aufs.Kern.PageCache
import Aufs.Verify.FileData

/-! Zeros in the page cache. A byte that should read as zero is zero in the cache and, unless the
cached block will be written there, on the device (`PageCache.ReadsZero`). Each operation keeps the
bytes so that it does not write; what takes a zone or reduces a size needs a device that is zero
there, for nothing in the module clears a new zone or the rest of a truncated file. -/

namespace Aufs
open Bytes Word

variable {config : Configuration} {sb : Sb} {behind : Nat → Nat}

/-! ## Inodes that keep their zones -/

namespace FileSys

variable {s : FileSys} {inode inode' : AufsInode}

/-- The file system with `inode` in the place of inode `ino`. -/
def setInode (s : FileSys) (ino : Nat) (inode : AufsInode) : FileSys :=
  { s with files := Function.update s.files ino (some inode) }

@[simp] theorem setInode_files_self : (s.setInode ino inode).files ino = some inode :=
  Function.update_self ..

section
variable (hi : s.files ino = some inode) (hptr : inode'.aiZonePtr = inode.aiZonePtr)
include hi hptr

theorem ptr_setInode : (s.setInode ino inode').Ptr ino' i p ↔ s.Ptr ino' i p := by
  simp only [Ptr, setInode, Function.update_apply]
  by_cases h : ino' = ino
  · simp [h, hi, hptr]
  · simp [h]

theorem Inv.setInode (I : Inv config sb s) : Inv config sb (s.setInode ino inode') := by
  refine I.of_ptr rfl (fun _ _ _ => ptr_setInode hi hptr) fun ino₁ inode₁ h => ?_
  change Function.update s.files ino (some inode') ino₁ = some inode₁ at h
  rcases PartialMap.update_eq_some h with ⟨rfl, -⟩ | ⟨-, h⟩
  · exact I.named _ inode hi
  · exact I.named ino₁ inode₁ h

theorem block_setInode (M : Mounted config sb) (I : Inv config sb s) :
    (s.setInode ino inode').block sb behind ino' iblock = s.block sb behind ino' iblock :=
  block_of_ptr M I (I.setInode hi hptr) fun _ _ _ => ptr_setInode hi hptr

end

end FileSys

namespace CachedBlock

variable (buf : CachedBlock)

theorem truncate_bytes (start size : Nat) :
    (buf.truncate start size).bytes = (buf.zeroFrom (size - start)).bytes := by
  unfold truncate
  split
  · rfl
  · rfl

theorem truncate_of_lt {start size : Nat} (h : start < size) :
    buf.truncate start size = buf.zeroFrom (size - start) := by
  unfold truncate
  exact if_neg (Nat.not_le.mpr h)

theorem dirty_of_truncate {start size : Nat} (h : (buf.truncate start size).dirty = true) :
    buf.dirty = true := by
  unfold truncate at h
  split at h
  · cases h
  · exact h

end CachedBlock

namespace PageCache

variable {s s' : PageCache}

/-- The byte on the device behind offset `k.2` of file `k.1`, if that block is mapped and on the
device. -/
def diskByte (sb : Sb) (behind : Nat → Nat) (s : PageCache) (k : Nat × Nat) : Option Byte := do
  let b ← s.fs.block sb behind k.1 (k.2 / sb.sBlocksize)
  guard (s.fs.dev.HasBlock sb.sBlocksize b)
  return s.fs.dev.bytes (b * sb.sBlocksize + k.2 % sb.sBlocksize)

/-- The block of `k` is cached and will be written to the device. -/
def ToBeWritten (sb : Sb) (s : PageCache) (k : Nat × Nat) (size : Nat) : Prop :=
  ∃ buf, s.cache k.1 (k.2 / sb.sBlocksize) = some buf ∧ buf.dirty = true ∧
    k.2 / sb.sBlocksize * sb.sBlocksize < size

theorem ToBeWritten.start_lt (h : s.ToBeWritten sb k size) :
    k.2 / sb.sBlocksize * sb.sBlocksize < size := by
  obtain ⟨_, -, -, hlt⟩ := h
  exact hlt

/-- Offset `k.2` of file `k.1` is zero in the cache, and on the device as well unless the cached
block will be written there. -/
structure ReadsZero (sb : Sb) (behind : Nat → Nat) (s : PageCache) (k : Nat × Nat) : Prop where
  cached : ∀ buf, s.cache k.1 (k.2 / sb.sBlocksize) = some buf → buf.bytes (k.2 % sb.sBlocksize) = 0
  disk : (∀ v, s.diskByte sb behind k = some v → v = 0) ∨
    ∃ inode, s.fs.files k.1 = some inode ∧ s.ToBeWritten sb k inode.iSize

theorem diskByte_eq_some_iff : s.diskByte sb behind k = some v ↔
    ∃ b, s.fs.block sb behind k.1 (k.2 / sb.sBlocksize) = some b ∧
      s.fs.dev.HasBlock sb.sBlocksize b ∧
      s.fs.dev.bytes (b * sb.sBlocksize + k.2 % sb.sBlocksize) = v := by
  constructor
  · intro h
    obtain ⟨b, hb, h⟩ := Option.bind_eq_some_iff.mp h
    obtain ⟨hon, h⟩ := FileSys.guard_bind_eq_some.mp h
    exact ⟨b, hb, hon, Option.some.inj h⟩
  · rintro ⟨b, hb, hon, rfl⟩
    exact Option.bind_eq_some_iff.mpr ⟨b, hb, FileSys.guard_bind_eq_some.mpr ⟨hon, rfl⟩⟩

/-- A zone that becomes taken from `s` to `s'` holds only zeros on the device. -/
def TakesZeroed (config : Configuration) (sb : Sb) (s s' : PageCache) : Prop :=
  ∀ j, bit (s.fs.zmap 0) j = false → bit (s'.fs.zmap 0) j = true →
    ∀ b, sb.zoneStart config j ≤ b → b < sb.zoneStart config j + config.blocksPerZone →
      s.fs.dev.HasBlock sb.sBlocksize b →
      ∀ r < sb.sBlocksize, s.fs.dev.bytes (b * sb.sBlocksize + r) = 0

theorem TakesZeroed.of_zmap (h : s'.fs.zmap = s.fs.zmap) : s.TakesZeroed config sb s' := by
  intro j hclear hset
  rw [h, hclear] at hset
  cases hset

/-! ## Mapping a block -/

/-- The device behind a byte that a call has mapped: it was mapped before, or lies in a zone that
the call has taken. -/
theorem block_getBlock (M : Mounted config sb) {fs fs' : FileSys} (I : fs.Inv config sb)
    (h : fs.getBlock sb behind ino iblock create = some (ret, fs'))
    (hb : fs'.block sb behind ino' iblock' = some b) :
    fs.block sb behind ino' iblock' = some b ∨
      ∃ j, bit (fs.zmap 0) j = false ∧ bit (fs'.zmap 0) j = true ∧
        sb.zoneStart config j ≤ b ∧ b < sb.zoneStart config j + config.blocksPerZone := by
  obtain ⟨I', -⟩ := FileSys.getBlock_spec M I h
  obtain ⟨hidx, ⟨rfl, -⟩ | ⟨inode, hi, h0, j, hj2, hjn, hbit, -, rfl⟩⟩ :=
    FileSys.getBlock_cases M I h
  · exact .inl hb
  · have hstart : sb.zoneStart config j ≠ 0 := by
      have := M.zoneStart_ge hj2
      omega
    have hoff := Nat.mod_lt iblock' M.accepted.blocksPerZone_pos
    obtain ⟨hidx', p, hp, rfl⟩ := (FileSys.block_eq_some_iff M I').mp hb
    rcases (FileSys.ptr_takeZone hi h0 hstart).mp hp with hp | ⟨-, -, rfl⟩
    · exact .inl ((FileSys.block_eq_some_iff M I).mpr ⟨hidx', p, hp, rfl⟩)
    · exact .inr ⟨j, hbit, by rw [FileSys.bit_takeZone, if_pos rfl], by omega, by omega⟩

/-- Mapping a block keeps a byte zero: the device does not change, and a new zone holds zeros. -/
theorem ReadsZero.getBlock (M : Mounted config sb) (I : s.fs.Inv config sb) {fs : FileSys}
    (h : s.fs.getBlock sb behind ino iblock create = some (ret, fs))
    (hzero : s.TakesZeroed config sb { s with fs }) (z : s.ReadsZero sb behind k) :
    ReadsZero sb behind { s with fs } k := by
  obtain ⟨I', g, hdev, -⟩ := FileSys.getBlock_spec M I h
  refine ⟨z.cached, ?_⟩
  rcases z.disk with hdisk | ⟨inode, hi, buf, hbuf, hdirty, hlt⟩
  · refine .inl fun v hv => ?_
    obtain ⟨b, hb, hon, rfl⟩ := diskByte_eq_some_iff.mp hv
    simp only [hdev] at hon ⊢
    rcases block_getBlock M I h hb with hold | ⟨j, hclear, hset, hge, hlt⟩
    · exact hdisk _ (diskByte_eq_some_iff.mpr ⟨b, hold, hon, rfl⟩)
    · exact hzero j hclear hset b hge hlt hon _ (Nat.mod_lt _ M.blocksize_pos)
  · obtain ⟨inode', hi', hle⟩ := g.sized _ inode hi
    exact .inr ⟨inode', hi', buf, hbuf, hdirty, Nat.lt_of_lt_of_le hlt hle⟩

/-! ## The cache -/

theorem putBlock_cache : (s.putBlock ino iblock buf).cache ino' iblock' =
    if ino' = ino ∧ iblock' = iblock then buf else s.cache ino' iblock' := by
  simp only [putBlock, Function.update_apply]
  by_cases hino : ino' = ino
  · simp [hino, Function.update_apply]
  · simp [hino]

@[simp] theorem putBlock_cache_self : (s.putBlock ino iblock buf).cache ino iblock = buf := by
  rw [putBlock_cache, if_pos ⟨rfl, rfl⟩]

/-- The block of `k` is block `iblock` of file `ino`. -/
def InBlock (sb : Sb) (k : Nat × Nat) (ino iblock : Nat) : Prop :=
  k.1 = ino ∧ k.2 / sb.sBlocksize = iblock

/-- A change of one cached block concerns the bytes of this block. -/
theorem ReadsZero.putBlock (z : s.ReadsZero sb behind k)
    (hin : InBlock sb k ino iblock → (s.putBlock ino iblock buf).ReadsZero sb behind k) :
    (s.putBlock ino iblock buf).ReadsZero sb behind k := by
  by_cases h : InBlock sb k ino iblock
  · exact hin h
  · have hcache : (s.putBlock ino iblock buf).cache k.1 (k.2 / sb.sBlocksize) =
        s.cache k.1 (k.2 / sb.sBlocksize) := by
      rw [putBlock_cache]
      exact if_neg h
    refine ⟨?_, ?_⟩
    · rw [hcache]
      exact z.cached
    · simp only [ToBeWritten, hcache]
      exact z.disk

/-- A byte of the changed block, when it is zero on the device. -/
theorem ReadsZero.of_disk (hk : InBlock sb k ino iblock)
    (hbuf : ∀ b, buf = some b → b.bytes (k.2 % sb.sBlocksize) = 0)
    (hdisk : ∀ v, s.diskByte sb behind k = some v → v = 0) :
    (s.putBlock ino iblock buf).ReadsZero sb behind k := by
  refine ⟨?_, .inl hdisk⟩
  rw [hk.1, hk.2, putBlock_cache_self]
  exact hbuf

/-- A byte whose block is not cached is zero on the device. -/
theorem ReadsZero.uncached (z : s.ReadsZero sb behind k)
    (h : s.cache k.1 (k.2 / sb.sBlocksize) = none) (hv : s.diskByte sb behind k = some v) :
    v = 0 := by
  rcases z.disk with hdisk | ⟨inode, -, buf, hbuf, -⟩
  · exact hdisk v hv
  · cases h.symm.trans hbuf

/-- What bringing in a block does. -/
structure Loaded (config : Configuration) (sb : Sb) (behind : Nat → Nat) (s : PageCache)
    (ino iblock : Nat) (buf : Option CachedBlock) (s' : PageCache) : Prop where
  inv : s'.fs.Inv config sb
  grows : s.fs.Grows config sb ino s'.fs
  cached : ∀ b, buf = some b → s'.cache ino iblock = some b
  failed : buf = none → ∃ b, s'.fs.block sb behind ino iblock = some b ∧
    ¬s'.fs.dev.HasBlock sb.sBlocksize b
  zero : s.TakesZeroed config sb s' → ∀ k, s.ReadsZero sb behind k → s'.ReadsZero sb behind k

theorem loadBlock_loaded (M : Mounted config sb) (I : s.fs.Inv config sb)
    (h : s.loadBlock sb behind ino iblock create = some (buf, s')) :
    Loaded config sb behind s ino iblock buf s' := by
  unfold loadBlock at h
  cases hcache : s.cache ino iblock with
  | some b =>
    simp only [hcache, Option.some.injEq, Prod.mk.injEq] at h
    obtain ⟨rfl, rfl⟩ := h
    exact ⟨I, .refl, fun b' hb' => hb' ▸ hcache, nofun, fun _ _ z => z⟩
  | none =>
    simp only [hcache] at h
    obtain ⟨⟨bytes, s₁⟩, hread, h⟩ := Option.bind_eq_some_iff.mp h
    obtain ⟨⟨ret, fs⟩, hget, hread⟩ := Option.bind_eq_some_iff.mp hread
    obtain ⟨I', g, hdev, b, rfl, hb⟩ := FileSys.getBlock_spec M I hget
    simp only at hread
    split at hread
    · next hon =>
      cases hread
      cases h
      refine ⟨I', g, fun b' hb' => hb' ▸ putBlock_cache_self, nofun, fun hzero k z => ?_⟩
      have z' := z.getBlock M I hget hzero
      refine z'.putBlock fun hin => ?_
      have hdisk : ∀ v, diskByte sb behind { s with fs } k = some v → v = 0 :=
        fun v hv => z'.uncached (by rw [hin.1, hin.2]; exact hcache) hv
      refine .of_disk hin ?_ hdisk
      rintro _ ⟨⟩
      exact hdisk _ (diskByte_eq_some_iff.mpr ⟨b, by rw [hin.1, hin.2]; exact hb, hon, rfl⟩)
    · next hoff =>
      cases hread
      cases h
      exact ⟨I', g, nofun, fun _ => ⟨b, hb, hoff⟩, fun hzero k z => z.getBlock M I hget hzero⟩

/-- What it brings in. -/
def diskBlock (sb : Sb) (fs : FileSys) (b : Nat) : CachedBlock :=
  { bytes := fun k => fs.dev.bytes (b * sb.sBlocksize + k), dirty := false, mapped := true }

theorem loadBlock_uncached {fs : FileSys} (hcache : s.cache ino iblock = none)
    (hget : s.fs.getBlock sb behind ino iblock create = some (.ok b, fs))
    (hon : fs.dev.HasBlock sb.sBlocksize b) :
    s.loadBlock sb behind ino iblock create = some (some (diskBlock sb fs b),
      PageCache.putBlock { s with fs } ino iblock (some (diskBlock sb fs b))) := by
  simp only [loadBlock, hcache, readBlock, hget, Option.bind_eq_bind, Option.bind_some, if_pos hon]
  rfl

theorem readpage_zero (M : Mounted config sb) (I : s.fs.Inv config sb)
    (h : s.readpage sb behind ino iblock = some s') :
    s'.fs.Inv config sb ∧
      (s.TakesZeroed config sb s' → ∀ k, s.ReadsZero sb behind k → s'.ReadsZero sb behind k) := by
  obtain ⟨inode, -, h⟩ := Option.bind_eq_some_iff.mp h
  obtain ⟨-, h⟩ := FileSys.guard_bind_eq_some.mp h
  split at h
  · obtain ⟨⟨buf, s₁⟩, hload, h⟩ := Option.bind_eq_some_iff.mp h
    have L := loadBlock_loaded M I hload
    cases h
    exact ⟨L.inv, L.zero⟩
  · cases hcache : s.cache ino iblock with
    | some buf =>
      simp only [hcache] at h
      cases h
      exact ⟨I, fun _ _ z => z⟩
    | none =>
      simp only [hcache] at h
      cases h
      refine ⟨I, fun _ k z => z.putBlock fun hk => .of_disk hk ?_ fun v hv => ?_⟩
      · rintro _ ⟨⟩
        rfl
      · exact z.uncached (by rw [hk.1, hk.2]; exact hcache) hv

/-! ## Truncating -/

theorem truncatePagecache_cache : (s.truncatePagecache sb ino size).cache ino' iblock =
    if ino' = ino then
      if size ≤ iblock * sb.sBlocksize / PAGE_SIZE * PAGE_SIZE then none
      else (s.cache ino' iblock).map (·.truncate (iblock * sb.sBlocksize) size)
    else s.cache ino' iblock := by
  simp only [truncatePagecache, Function.update_apply]
  by_cases hino : ino' = ino
  · simp [hino]
  · simp [hino]

/-- A block that starts below the size stays in the cache. -/
theorem ToBeWritten.truncate (h : s.ToBeWritten sb k old)
    (hlt : k.1 = ino → k.2 / sb.sBlocksize * sb.sBlocksize < size)
    (hnew : k.2 / sb.sBlocksize * sb.sBlocksize < new) :
    (s.truncatePagecache sb ino size).ToBeWritten sb k new := by
  obtain ⟨buf, hbuf, hdirty, -⟩ := h
  by_cases hino : k.1 = ino
  · have hlt := hlt hino
    have hpage : ¬size ≤ k.2 / sb.sBlocksize * sb.sBlocksize / PAGE_SIZE * PAGE_SIZE := by
      have hle := Nat.div_mul_le_self (k.2 / sb.sBlocksize * sb.sBlocksize) PAGE_SIZE
      omega
    refine ⟨buf.zeroFrom (size - k.2 / sb.sBlocksize * sb.sBlocksize), ?_, hdirty, hnew⟩
    rw [truncatePagecache_cache, if_pos hino, if_neg hpage, hbuf, Option.map_some,
      buf.truncate_of_lt hlt]
  · refine ⟨buf, ?_, hdirty, hnew⟩
    rw [truncatePagecache_cache, if_neg hino, hbuf]

/-- What is past the size is zero in the cache. -/
theorem truncatePagecache_zero {k : Nat × Nat}
    (h : (s.truncatePagecache sb k.1 size).cache k.1 (k.2 / sb.sBlocksize) = some buf)
    (hge : size ≤ k.2) : buf.bytes (k.2 % sb.sBlocksize) = 0 := by
  rw [truncatePagecache_cache, if_pos rfl] at h
  split at h
  · cases h
  · obtain ⟨buf, -, rfl⟩ := Option.map_eq_some_iff.mp h
    have hsum := Nat.div_add_mod' k.2 sb.sBlocksize
    rw [buf.truncate_bytes]
    exact if_neg (by omega)

/-- A cached zero stays zero. -/
theorem truncatePagecache_kept
    (h : (s.truncatePagecache sb ino size).cache ino' iblock = some buf)
    (hzero : ∀ buf, s.cache ino' iblock = some buf → buf.bytes r = 0) : buf.bytes r = 0 := by
  rw [truncatePagecache_cache] at h
  split at h
  · split at h
    · cases h
    · obtain ⟨buf, hbuf, rfl⟩ := Option.map_eq_some_iff.mp h
      rw [buf.truncate_bytes]
      change (if _ then _ else _) = _
      rw [hzero buf hbuf, ite_self]
  · exact hzero buf h

/-- Truncating the cache to `i_size` or more keeps a byte zero. -/
theorem ReadsZero.truncate (z : s.ReadsZero sb behind k)
    (hle : ∀ inode, s.fs.files ino = some inode → inode.iSize ≤ size) :
    (s.truncatePagecache sb ino size).ReadsZero sb behind k := by
  refine ⟨fun buf hbuf => truncatePagecache_kept hbuf z.cached, ?_⟩
  rcases z.disk with hdisk | ⟨inode, hi, h⟩
  · exact .inl hdisk
  · have hlt := h.start_lt
    refine .inr ⟨inode, hi, h.truncate (fun hino => ?_) hlt⟩
    exact Nat.lt_of_lt_of_le hlt (hle inode (hino ▸ hi))

/-- So does a change of the files that keeps their blocks and reduces no size. -/
theorem ReadsZero.files (z : s.ReadsZero sb behind k) {fs : FileSys} (hdev : fs.dev = s.fs.dev)
    (hblock : ∀ ino iblock, fs.block sb behind ino iblock = s.fs.block sb behind ino iblock)
    (hsize : ∀ ino inode, s.fs.files ino = some inode →
      ∃ inode', fs.files ino = some inode' ∧ inode.iSize ≤ inode'.iSize) :
    ReadsZero sb behind { s with fs } k := by
  refine ⟨z.cached, ?_⟩
  rcases z.disk with hdisk | ⟨inode, hi, buf, hbuf, hdirty, hlt⟩
  · refine .inl fun v hv => hdisk v ?_
    rwa [diskByte_eq_some_iff, hblock, hdev, ← diskByte_eq_some_iff] at hv
  · obtain ⟨inode', hi', hle⟩ := hsize _ inode hi
    exact .inr ⟨inode', hi', buf, hbuf, hdirty, Nat.lt_of_lt_of_le hlt hle⟩

/-- `minix_setattr` keeps the zones, and changes the size only as asked. -/
theorem minixSetattr_size (prepared : Except Errno Unit) (inode : AufsInode) (attr : Iattr) :
    (minixSetattr prepared inode attr).2.aiZonePtr = inode.aiZonePtr ∧
      ((minixSetattr prepared inode attr).2.iSize = inode.iSize ∨
        prepared = .ok () ∧ attr.iaSize = some (minixSetattr prepared inode attr).2.iSize ∧
          (minixSetattr prepared inode attr).2.iSize ≤ MAX_NON_LFS) := by
  cases prepared with
  | error e => exact ⟨rfl, .inl rfl⟩
  | ok u =>
    simp only [minixSetattr]
    cases hsize : setattrSize inode attr with
    | error e => exact ⟨rfl, .inl rfl⟩
    | ok inode' =>
      rcases setattrSize_cases hsize with rfl | ⟨size, hattr, hle, rfl⟩
      · exact ⟨rfl, .inl rfl⟩
      · exact ⟨rfl, .inr ⟨trivial, hattr, hle⟩⟩

theorem minixSetattr_reduced {inode : AufsInode} {attr : Iattr} (hattr : attr.iaSize = some size)
    (hle : size ≤ MAX_NON_LFS) (hlt : size < inode.iSize) :
    (minixSetattr (.ok ()) inode attr).2.iSize = size := by
  simp only [minixSetattr, setattrSize, hattr, inodeNewsizeOk, if_pos (Nat.ne_of_lt hlt),
    if_neg (Nat.not_lt.mpr hle)]
  rfl

/-- The condition on a step that reduces the size of a file: past the new size the device holds
zeros, except where a dirty block will be written over it. -/
def ReducesZeroed (sb : Sb) (behind : Nat → Nat) (s : PageCache) : PageOp → Prop
  | .setattr ino prepared attr =>
    ∀ inode size, s.fs.files ino = some inode → prepared = .ok () → attr.iaSize = some size →
      size ≤ MAX_NON_LFS → size < inode.iSize → ∀ o, size ≤ o →
        (∀ v, s.diskByte sb behind (ino, o) = some v → v = 0) ∨ s.ToBeWritten sb (ino, o) size
  | _ => True

/-- The step that changes a size: what was zero stays zero, and after a reduction everything past
the new size is. -/
theorem setattr_zero (M : Mounted config sb) (I : s.fs.Inv config sb)
    (h : s.setattr sb ino prepared attr = some (ret, old, new, s')) :
    s'.fs.Inv config sb ∧ (s.ReducesZeroed sb behind (.setattr ino prepared attr) →
      ∀ k, s.ReadsZero sb behind k ∨ k.1 = ino ∧ new < old ∧ new ≤ k.2 →
        s'.ReadsZero sb behind k) := by
  obtain ⟨inode, hi, h⟩ := Option.bind_eq_some_iff.mp h
  obtain ⟨hptr, hsize⟩ := minixSetattr_size prepared inode attr
  simp only [Option.pure_def, Option.some.injEq, Prod.mk.injEq] at h
  generalize minixSetattr prepared inode attr = r at h hptr hsize
  obtain ⟨ret', inode'⟩ := r
  obtain ⟨-, rfl, rfl, rfl⟩ := h
  have I' := I.setInode hi hptr
  have hself : (s.fs.setInode ino inode').files ino = some inode' := Function.update_self ..
  have hother : ∀ {ino'}, ino' ≠ ino → (s.fs.setInode ino inode').files ino' = s.fs.files ino' :=
    fun hne => Function.update_of_ne hne ..
  have hblock : ∀ ino' iblock, (s.fs.setInode ino inode').block sb behind ino' iblock =
      s.fs.block sb behind ino' iblock := fun _ _ => FileSys.block_setInode hi hptr M I
  by_cases hlt : inode'.iSize < inode.iSize
  · rw [if_pos (Nat.ne_of_lt hlt)]
    refine ⟨I', fun hred k hk => ?_⟩
    obtain ⟨hprep, hattr, hle⟩ := hsize.resolve_left (Nat.ne_of_lt hlt)
    have hpast := hred inode inode'.iSize hi hprep hattr hle hlt
    have hdisk : ∀ v, (truncatePagecache sb { s with fs := s.fs.setInode ino inode' } ino
        inode'.iSize).diskByte sb behind k = some v → s.diskByte sb behind k = some v := by
      intro v hv
      rw [diskByte_eq_some_iff] at hv ⊢
      obtain ⟨b, hb, hv⟩ := hv
      exact ⟨b, (hblock ..).symm.trans hb, hv⟩
    by_cases hin : k.1 = ino ∧ inode'.iSize ≤ k.2
    · -- past the new size: zeroed in the cache, and zero on the device by the condition
      obtain ⟨rfl, hge⟩ := hin
      refine ⟨fun buf hbuf => truncatePagecache_zero hbuf hge, ?_⟩
      rcases hpast k.2 hge with hzero | hwritten
      · exact .inl fun v hv => hzero v (hdisk v hv)
      · have hstart := hwritten.start_lt
        exact .inr ⟨inode', hself, ToBeWritten.truncate hwritten (fun _ => hstart) hstart⟩
    · have z := hk.resolve_right fun h => hin ⟨h.1, h.2.2⟩
      refine ⟨fun buf hbuf => truncatePagecache_kept hbuf z.cached, ?_⟩
      rcases z.disk with hzero | ⟨inode₁, h₁, hwritten⟩
      · exact .inl fun v hv => hzero v (hdisk v hv)
      · have hstart := hwritten.start_lt
        by_cases hino : k.1 = ino
        · have hle := Nat.div_mul_le_self k.2 sb.sBlocksize
          have hnew : k.2 / sb.sBlocksize * sb.sBlocksize < inode'.iSize :=
            Nat.lt_of_le_of_lt hle (Nat.lt_of_not_le fun h => hin ⟨hino, h⟩)
          exact .inr ⟨inode', hino ▸ hself, ToBeWritten.truncate hwritten (fun _ => hnew) hnew⟩
        · exact .inr ⟨inode₁, (hother hino).trans h₁,
            ToBeWritten.truncate hwritten (fun h => absurd h hino) hstart⟩
  · have hzero : ∀ k, s.ReadsZero sb behind k ∨
        k.1 = ino ∧ inode'.iSize < inode.iSize ∧ inode'.iSize ≤ k.2 →
        ReadsZero sb behind { s with fs := s.fs.setInode ino inode' } k := by
      intro k hk
      have z := hk.resolve_right fun h => hlt h.2.1
      refine z.files rfl hblock fun ino₁ inode₁ h₁ => ?_
      by_cases hino : ino₁ = ino
      · cases (hino ▸ h₁).symm.trans hi
        exact ⟨inode', hino ▸ hself, Nat.le_of_not_lt hlt⟩
      · exact ⟨inode₁, (hother hino).trans h₁, Nat.le_refl _⟩
    split
    · refine ⟨I', fun _ k hk => (hzero k hk).truncate fun inode₁ h₁ => ?_⟩
      cases hself.symm.trans h₁
      exact Nat.le_refl _
    · exact ⟨I', fun _ => hzero⟩

/-! ## Writing -/

@[simp] theorem minixWriteFailed_fs : (s.minixWriteFailed sb ino endPos).fs = s.fs := by
  unfold minixWriteFailed
  split
  · rfl
  · split
    · rfl
    · rfl

theorem ReadsZero.minixWriteFailed (z : s.ReadsZero sb behind k) :
    (s.minixWriteFailed sb ino endPos).ReadsZero sb behind k := by
  unfold PageCache.minixWriteFailed
  split
  · exact z
  · next inode hi =>
    split
    · refine z.truncate fun inode' hi' => ?_
      cases hi.symm.trans hi'
      exact Nat.le_refl _
    · exact z

/-- What `minix_write_begin` leaves, and the buffer it returns: it holds the bytes of the cached
block, or all of it will be written. -/
structure Begun (config : Configuration) (sb : Sb) (behind : Nat → Nat) (s : PageCache)
    (ino pos len : Nat) (buf : Option CachedBlock) (s' : PageCache) : Prop where
  inv : s'.fs.Inv config sb
  buffer : ∀ b, buf = some b →
    (∃ b', s'.cache ino (pos / sb.sBlocksize) = some b' ∧ b'.bytes = b.bytes) ∨ len = sb.sBlocksize
  zero : s.TakesZeroed config sb s' → ∀ k, s.ReadsZero sb behind k → s'.ReadsZero sb behind k

theorem minixWriteBegin_begun (M : Mounted config sb) (I : s.fs.Inv config sb)
    (h : s.minixWriteBegin sb behind ino pos len = some (buf, s')) :
    Begun config sb behind s ino pos len buf s' := by
  unfold minixWriteBegin at h
  cases hcache : s.cache ino (pos / sb.sBlocksize) with
  | some b =>
    simp only [hcache] at h
    split at h
    · cases h
      refine ⟨I, fun b' hb' => .inl ⟨b, hcache, ?_⟩, fun _ _ z => z⟩
      cases hb'
      rfl
    · obtain ⟨⟨ret, fs⟩, hget, h⟩ := Option.bind_eq_some_iff.mp h
      obtain ⟨I', -, -, block, rfl, -⟩ := FileSys.getBlock_spec M I hget
      cases h
      refine ⟨I', fun b' hb' => .inl ⟨b, hcache, ?_⟩, fun hzero k z => z.getBlock M I hget hzero⟩
      cases hb'
      rfl
  | none =>
    simp only [hcache] at h
    split at h
    · next hlen =>
      obtain ⟨⟨ret, fs⟩, hget, h⟩ := Option.bind_eq_some_iff.mp h
      obtain ⟨I', -, -, b, rfl, -⟩ := FileSys.getBlock_spec M I hget
      cases h
      exact ⟨I', fun _ _ => .inr hlen, fun hzero k z => z.getBlock M I hget hzero⟩
    · obtain ⟨⟨buf', s₁⟩, hload, h⟩ := Option.bind_eq_some_iff.mp h
      have L := loadBlock_loaded M I hload
      cases buf' with
      | none =>
        cases h
        refine ⟨by rw [minixWriteFailed_fs]; exact L.inv, nofun, fun hzero k z => ?_⟩
        refine (L.zero ?_ k z).minixWriteFailed
        rwa [TakesZeroed, minixWriteFailed_fs] at hzero
      | some b =>
        cases h
        exact ⟨L.inv, fun b' hb' => .inl ⟨b', L.cached b' hb', rfl⟩, L.zero⟩

theorem writeEnd_eq {fs : FileSys} {inode : AufsInode} (hi : fs.files ino = some inode) :
    fs.writeEnd ino pos n = fs.setInode ino (genericWriteEnd inode pos n) := by
  unfold FileSys.writeEnd
  rw [hi]
  rfl

/-- `generic_write_end` keeps the zones and reduces no size. -/
theorem writeEnd_files (M : Mounted config sb) {fs : FileSys} (I : fs.Inv config sb) :
    (fs.writeEnd ino pos n).Inv config sb ∧
    (∀ ino' iblock, (fs.writeEnd ino pos n).block sb behind ino' iblock =
      fs.block sb behind ino' iblock) ∧
    ∀ ino' inode, fs.files ino' = some inode →
      ∃ inode', (fs.writeEnd ino pos n).files ino' = some inode' ∧ inode.iSize ≤ inode'.iSize := by
  cases hi : fs.files ino with
  | none =>
    have hsame : fs.writeEnd ino pos n = fs := by
      unfold FileSys.writeEnd
      rw [hi, Option.map_none, ← hi, Function.update_eq_self]
    rw [hsame]
    exact ⟨I, fun _ _ => rfl, fun ino' inode h => ⟨inode, h, Nat.le_refl _⟩⟩
  | some inode =>
    have hptr : (genericWriteEnd inode pos n).aiZonePtr = inode.aiZonePtr :=
      FileSys.genericWriteEnd_aiZonePtr inode
    rw [writeEnd_eq hi]
    refine ⟨I.setInode hi hptr, fun _ _ => FileSys.block_setInode hi hptr M I, ?_⟩
    intro ino' inode' hi'
    by_cases hino : ino' = ino
    · cases (hino ▸ hi').symm.trans hi
      subst hino
      refine ⟨_, Function.update_self .., ?_⟩
      rw [FileSys.genericWriteEnd_iSize]
      exact Nat.le_max_left ..
    · exact ⟨inode', (Function.update_of_ne hino ..).trans hi', Nat.le_refl _⟩

theorem write_zero (M : Mounted config sb) (I : s.fs.Inv config sb)
    (hin : pos % sb.sBlocksize + chunk.length ≤ sb.sBlocksize)
    (h : s.write sb behind ino pos chunk = some (n, s')) :
    s'.fs.Inv config sb ∧
      (s.TakesZeroed config sb s' → ∀ k, s.ReadsZero sb behind k →
        ¬(k.1 = ino ∧ pos ≤ k.2 ∧ k.2 < pos + n) → s'.ReadsZero sb behind k) := by
  obtain ⟨⟨buf, s₁⟩, hbegin, h⟩ := Option.bind_eq_some_iff.mp h
  have B := minixWriteBegin_begun M I hbegin
  cases buf with
  | none =>
    cases h
    exact ⟨B.inv, fun hzero k z _ => B.zero hzero k z⟩
  | some buf =>
    cases h
    obtain ⟨I', hblock, hsize⟩ := writeEnd_files M B.inv
    refine ⟨I', fun hzero k z hout => ?_⟩
    have z₁ := B.zero hzero k z
    have z₂ : ReadsZero sb behind { s₁ with fs := s₁.fs.writeEnd ino pos chunk.length } k :=
      z₁.files rfl hblock hsize
    refine z₂.putBlock fun hk => ?_
    obtain ⟨rfl, hiblock⟩ := hk
    refine ⟨?_, ?_⟩
    · intro buf' hbuf'
      rw [hiblock, putBlock_cache_self] at hbuf'
      cases hbuf'
      have hmod := Nat.mod_lt k.2 M.blocksize_pos
      have hclear := FileSys.outside_chunk hiblock fun h => hout ⟨rfl, h⟩
      change poke buf.bytes (pos % sb.sBlocksize) chunk (k.2 % sb.sBlocksize) = 0
      rw [poke_outside (by omega)]
      rcases B.buffer buf rfl with ⟨buf', hcached, hbytes⟩ | hlen
      · rw [← hbytes]
        exact z₁.cached buf' (by rw [hiblock]; exact hcached)
      · exact absurd ⟨by omega, by omega⟩ hclear
    · rcases z₂.disk with hdisk | ⟨inode, hi, -, -, -, hlt⟩
      · exact .inl hdisk
      · exact .inr ⟨inode, hi, _, by rw [hiblock, putBlock_cache_self], rfl, hlt⟩

/-! ## Write-back and eviction -/

/-- A block that goes to the device: its bytes become those of the buffer, and no other byte of a
file changes. -/
theorem diskByte_write (M : Mounted config sb) {fs : FileSys} (I : fs.Inv config sb)
    (hb : fs.block sb behind ino iblock = some b) {m : Mem}
    (h : diskByte sb behind { s with fs := { fs with
      dev := fs.dev.write (b * sb.sBlocksize) (peek m 0 sb.sBlocksize) } } k = some v) :
    (InBlock sb k ino iblock → v = m (k.2 % sb.sBlocksize)) ∧
      (¬InBlock sb k ino iblock → diskByte sb behind { s with fs } k = some v) := by
  have hmod := Nat.mod_lt k.2 M.blocksize_pos
  obtain ⟨b', hb', hon, hv⟩ := diskByte_eq_some_iff.mp h
  replace hb' : fs.block sb behind k.1 (k.2 / sb.sBlocksize) = some b' := hb'
  replace hv : poke fs.dev.bytes (b * sb.sBlocksize) (peek m 0 sb.sBlocksize)
    (b' * sb.sBlocksize + k.2 % sb.sBlocksize) = v := hv
  constructor
  · rintro ⟨rfl, rfl⟩
    cases hb.symm.trans hb'
    rw [poke_peek hmod, Nat.zero_add] at hv
    exact hv.symm
  · intro hout
    have hne : b' ≠ b := by
      rintro rfl
      obtain ⟨h₁, h₂⟩ := FileSys.block_injective M I hb' hb
      exact hout ⟨h₁, h₂⟩
    refine diskByte_eq_some_iff.mpr ⟨b', hb', hon, ?_⟩
    rw [← hv, poke_outside]
    rw [peek_length]
    rcases Nat.lt_or_gt_of_ne hne with hlt | hgt
    · have hmul := Nat.mul_le_mul_right sb.sBlocksize (show b' + 1 ≤ b from hlt)
      rw [Nat.add_mul, Nat.one_mul] at hmul
      exact .inl (by omega)
    · have hmul := Nat.mul_le_mul_right sb.sBlocksize (show b + 1 ≤ b' from hgt)
      rw [Nat.add_mul, Nat.one_mul] at hmul
      exact .inr (by omega)

theorem writepage_zero (M : Mounted config sb) (I : s.fs.Inv config sb)
    (h : s.writepage sb behind ino iblock = some s') :
    s'.fs.Inv config sb ∧
      (s.TakesZeroed config sb s' → ∀ k, s.ReadsZero sb behind k → s'.ReadsZero sb behind k) := by
  obtain ⟨inode, hi, h⟩ := Option.bind_eq_some_iff.mp h
  obtain ⟨buf, hbuf, h⟩ := Option.bind_eq_some_iff.mp h
  obtain ⟨hdirty, h⟩ := FileSys.guard_bind_eq_some.mp h
  simp only at h
  -- what is written or kept is zero where the buffer was
  have hzeroed : ∀ k, s.ReadsZero sb behind k → InBlock sb k ino iblock →
      (buf.zeroFrom (inode.iSize - iblock * sb.sBlocksize)).bytes (k.2 % sb.sBlocksize) = 0 := by
    intro k z hk
    change (if _ then _ else _) = _
    rw [z.cached buf (by rw [hk.1, hk.2]; exact hbuf), ite_self]
  generalize hm : (buf.zeroFrom (inode.iSize - iblock * sb.sBlocksize)).bytes = m at h hzeroed
  split at h
  · next hlt =>
    obtain ⟨⟨ret, fs⟩, hget, h⟩ := Option.bind_eq_some_iff.mp h
    obtain ⟨I', g, hdev, b, rfl, hb⟩ := FileSys.getBlock_spec M I hget
    simp only at h
    split at h
    · next hon =>
      cases h
      refine ⟨⟨I'.clear, I'.named, I'.owned, I'.distinct⟩, fun hzero k z => ?_⟩
      have z₁ := z.getBlock M I hget hzero
      by_cases hk : InBlock sb k ino iblock
      · refine .of_disk hk ?_ fun v hv => ?_
        · rintro _ ⟨⟩
          exact hzeroed k z hk
        · rw [(diskByte_write M I' hb hv).1 hk]
          exact hzeroed k z hk
      · have z₂ : ReadsZero sb behind { s with fs := { fs with
            dev := fs.dev.write (b * sb.sBlocksize) (peek m 0 sb.sBlocksize) } } k := by
          refine ⟨z₁.cached, ?_⟩
          rcases z₁.disk with hdisk | hwritten
          · exact .inl fun v hv => hdisk v ((diskByte_write M I' hb hv).2 hk)
          · exact .inr hwritten
        exact z₂.putBlock fun h => absurd h hk
    · next hoff =>
      cases h
      refine ⟨I', fun hzero k z => (z.getBlock M I hget hzero).putBlock fun hk => ?_⟩
      refine .of_disk hk ?_ fun v hv => ?_
      · rintro _ ⟨⟩
        exact hzeroed k z hk
      · obtain ⟨b', hb', hon, -⟩ := diskByte_eq_some_iff.mp hv
        rw [hk.1, hk.2] at hb'
        cases hb.symm.trans hb'
        exact absurd hon hoff
  · next hge =>
    cases h
    refine ⟨I, fun hzero k z => z.putBlock fun hk => .of_disk hk ?_ fun v hv => ?_⟩
    · rintro _ ⟨⟩
      exact hzeroed k z hk
    · rcases z.disk with hdisk | ⟨inode', hi', -, -, -, hlt⟩
      · exact hdisk v hv
      · rw [hk.1] at hi'
        cases hi.symm.trans hi'
        rw [hk.2] at hlt
        exact absurd hlt hge

theorem evict_zero (h : s.evict ino iblock = some s') (z : s.ReadsZero sb behind k) :
    s'.ReadsZero sb behind k := by
  obtain ⟨buf, hbuf, h⟩ := Option.bind_eq_some_iff.mp h
  obtain ⟨hclean, h⟩ := FileSys.guard_bind_eq_some.mp h
  cases h
  refine z.putBlock fun hk => .of_disk hk nofun fun v hv => ?_
  rcases z.disk with hdisk | ⟨inode, -, buf', hbuf', hdirty, -⟩
  · exact hdisk v hv
  · rw [hk.1, hk.2] at hbuf'
    cases hbuf.symm.trans hbuf'
    cases hclean.symm.trans hdirty

/-! ## Reading -/

/-- What a read gives: the error of a block that is not on the device, or the bytes up to `i_size`,
zero where they should be. -/
theorem read_zero (M : Mounted config sb) (I : s.fs.Inv config sb)
    (hin : pos % sb.sBlocksize + n ≤ sb.sBlocksize)
    (h : s.read sb behind ino pos n = some (bytes, s')) :
    s'.fs.Inv config sb ∧
      (s.TakesZeroed config sb s' → ∀ k, s.ReadsZero sb behind k → s'.ReadsZero sb behind k) ∧
      (bytes = none → ∃ b, s'.fs.block sb behind ino (pos / sb.sBlocksize) = some b ∧
        ¬s'.fs.dev.HasBlock sb.sBlocksize b) ∧
      ∃ inode, s.fs.files ino = some inode ∧ ∀ got, bytes = some got →
        got.length = min n (inode.iSize - pos) ∧
        ∀ i < got.length, s'.ReadsZero sb behind (ino, pos + i) → got[i]? = some 0 := by
  obtain ⟨inode, hi, h⟩ := Option.bind_eq_some_iff.mp h
  simp only at h
  split at h
  · next hzero =>
    cases h
    refine ⟨I, fun _ _ z => z, nofun, inode, hi, ?_⟩
    rintro _ ⟨⟩
    exact ⟨hzero.symm, fun i hi => absurd hi (Nat.not_lt_zero i)⟩
  · obtain ⟨⟨buf, s₁⟩, hload, h⟩ := Option.bind_eq_some_iff.mp h
    have L := loadBlock_loaded M I hload
    cases h
    refine ⟨L.inv, L.zero, ?_, inode, hi, ?_⟩
    · intro hnone
      exact L.failed (Option.map_eq_none_iff.mp hnone)
    · intro got hgot
      obtain ⟨buf, rfl, rfl⟩ := Option.map_eq_some_iff.mp hgot
      refine ⟨peek_length, fun i hlt z => ?_⟩
      rw [peek_length] at hlt
      obtain ⟨hdiv, hmod⟩ := FileSys.chunk_offset hin (Nat.le_add_right pos i) (by omega)
      rw [peek_getElem? hlt]
      have hzero := z.cached buf (by simp only [hdiv]; exact L.cached buf rfl)
      simp only [hmod, Nat.add_sub_cancel_left] at hzero
      rw [hzero]

end PageCache

end Aufs
