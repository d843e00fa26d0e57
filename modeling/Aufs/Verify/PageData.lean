import Aufs.Verify.Unwritten

/-! File data through the page cache. The cache and the device together hold what the writes have
put into each file: a byte is in the cached block, and on the device as well unless that block is
dirty (`PageCache.Keeps`). Write-back, eviction, reading ahead and changes of the size above the
byte keep it there, so what a read gives does not depend on them. -/

namespace Aufs
open Bytes Word

variable {config : Configuration} {sb : Sb} {behind : Nat → Nat}

/-- Every zone that a file can get lies on a device of `size` bytes. -/
def ZonesOnDevice (config : Configuration) (sb : Sb) (size : Nat) : Prop :=
  ∀ j, 2 ≤ j → j < config.numZones → ∀ b, sb.zoneStart config j ≤ b →
    b < sb.zoneStart config j + config.blocksPerZone → (b + 1) * sb.sBlocksize ≤ size

theorem FileSys.block_onDevice (M : Mounted config sb) {s : FileSys} (I : s.Inv config sb)
    (hz : ZonesOnDevice config sb s.dev.size) (hb : s.block sb behind ino iblock = some b) :
    s.dev.HasBlock sb.sBlocksize b := by
  obtain ⟨hidx, p, hp, rfl⟩ := (FileSys.block_eq_some_iff M I).mp hb
  obtain ⟨j, hj2, hjn, -, rfl⟩ := I.owned _ _ _ hp
  have hoff := Nat.mod_lt iblock M.accepted.blocksPerZone_pos
  exact hz j hj2 hjn _ (by omega) (by omega)

theorem FileSys.Grows.isSome {s s' : FileSys} (g : s.Grows config sb ino s')
    (h : (s.files ino').isSome) : (s'.files ino').isSome := by
  obtain ⟨inode, hi⟩ := Option.isSome_iff_exists.mp h
  obtain ⟨inode', hi', -⟩ := g.sized ino' inode hi
  rw [hi']
  rfl

theorem FileSys.isSome_of_getBlock {s s' : FileSys}
    (h : s.getBlock sb behind ino iblock create = some (ret, s')) : (s.files ino).isSome := by
  obtain ⟨inode, hi, -⟩ := Option.bind_eq_some_iff.mp h
  rw [hi]
  rfl

namespace PageCache

variable {s s' : PageCache} {k : Nat × Nat} {v : Byte}

/-- A good state, on a device that has all zones: blocks are cached for files only. -/
structure Sound (config : Configuration) (sb : Sb) (s : PageCache) : Prop where
  inv : s.fs.Inv config sb
  zones : ZonesOnDevice config sb s.fs.dev.size
  owner : ∀ ino iblock buf, s.cache ino iblock = some buf → (s.fs.files ino).isSome

/-- Offset `k.2` of file `k.1` lies below `i_size` and holds `v`: in the cached block, if there is
one, and on the device unless that block is dirty. -/
structure Keeps (sb : Sb) (behind : Nat → Nat) (s : PageCache) (k : Nat × Nat) (v : Byte) :
    Prop where
  sized : ∃ inode, s.fs.files k.1 = some inode ∧ k.2 < inode.iSize
  cached : ∀ buf, s.cache k.1 (k.2 / sb.sBlocksize) = some buf →
    buf.bytes (k.2 % sb.sBlocksize) = v
  disk : s.diskByte sb behind k = some v ∨
    ∃ buf, s.cache k.1 (k.2 / sb.sBlocksize) = some buf ∧ buf.dirty = true

namespace Keeps

/-- A change of the files that keeps the blocks and leaves the byte below `i_size`. -/
theorem files (h : s.Keeps sb behind k v) {fs : FileSys} (hdev : fs.dev = s.fs.dev)
    (hblock : ∀ ino iblock b, s.fs.block sb behind ino iblock = some b →
      fs.block sb behind ino iblock = some b)
    (hsize : ∀ inode, s.fs.files k.1 = some inode → k.2 < inode.iSize →
      ∃ inode', fs.files k.1 = some inode' ∧ k.2 < inode'.iSize) :
    Keeps sb behind { s with fs } k v := by
  obtain ⟨inode, hi, hlt⟩ := h.sized
  refine ⟨hsize inode hi hlt, h.cached, h.disk.imp_left fun hdisk => ?_⟩
  obtain ⟨b, hb, hon, hv⟩ := diskByte_eq_some_iff.mp hdisk
  refine diskByte_eq_some_iff.mpr ⟨b, hblock _ _ b hb, ?_, ?_⟩
  · rw [hdev]
    exact hon
  · rw [hdev]
    exact hv

/-- A change of one cached block concerns the bytes of this block. -/
theorem putBlock (h : s.Keeps sb behind k v)
    (hin : InBlock sb k ino iblock → (s.putBlock ino iblock buf).Keeps sb behind k v) :
    (s.putBlock ino iblock buf).Keeps sb behind k v := by
  by_cases hk : InBlock sb k ino iblock
  · exact hin hk
  · have hcache : (s.putBlock ino iblock buf).cache k.1 (k.2 / sb.sBlocksize) =
        s.cache k.1 (k.2 / sb.sBlocksize) := by
      rw [putBlock_cache]
      exact if_neg hk
    refine ⟨h.sized, ?_, ?_⟩
    · rw [hcache]
      exact h.cached
    · rw [hcache]
      exact h.disk

/-- A byte whose block is not cached, or cached and clean, is on the device. -/
theorem onDevice (h : s.Keeps sb behind k v)
    (hclean : ∀ buf, s.cache k.1 (k.2 / sb.sBlocksize) = some buf → buf.dirty = false) :
    s.diskByte sb behind k = some v := by
  rcases h.disk with hdisk | ⟨buf, hbuf, hdirty⟩
  · exact hdisk
  · cases (hclean buf hbuf).symm.trans hdirty

/-- A byte of the changed block that is on the device. -/
theorem of_disk (hsized : ∃ inode, s.fs.files k.1 = some inode ∧ k.2 < inode.iSize)
    (hk : InBlock sb k ino iblock)
    (hbuf : ∀ b, buf = some b → b.bytes (k.2 % sb.sBlocksize) = v)
    (hdisk : s.diskByte sb behind k = some v) :
    (s.putBlock ino iblock buf).Keeps sb behind k v := by
  refine ⟨hsized, ?_, .inl hdisk⟩
  rw [hk.1, hk.2, putBlock_cache_self]
  exact hbuf

/-- Mapping a block. -/
theorem getBlock (M : Mounted config sb) (I : s.fs.Inv config sb) {fs : FileSys}
    (hget : s.fs.getBlock sb behind ino iblock create = some (ret, fs))
    (h : s.Keeps sb behind k v) : Keeps sb behind { s with fs } k v := by
  obtain ⟨I', g, hdev, -⟩ := FileSys.getBlock_spec M I hget
  refine h.files hdev (fun _ _ _ hb => g.block M I I' hb) fun inode hi hlt => ?_
  obtain ⟨inode', hi', hle⟩ := g.sized _ inode hi
  exact ⟨inode', hi', Nat.lt_of_lt_of_le hlt hle⟩

/-- Truncating the cache past the byte. -/
theorem truncate (h : s.Keeps sb behind k v) (hlt : k.1 = ino → k.2 < size) :
    (s.truncatePagecache sb ino size).Keeps sb behind k v := by
  have hsum := Nat.div_add_mod' k.2 sb.sBlocksize
  by_cases hino : k.1 = ino
  · have hlt := hlt hino
    have hle := Nat.div_mul_le_self (k.2 / sb.sBlocksize * sb.sBlocksize) PAGE_SIZE
    have hcache : (s.truncatePagecache sb ino size).cache k.1 (k.2 / sb.sBlocksize) =
        (s.cache k.1 (k.2 / sb.sBlocksize)).map
          (·.truncate (k.2 / sb.sBlocksize * sb.sBlocksize) size) := by
      rw [truncatePagecache_cache, if_pos hino, if_neg (by omega)]
    refine ⟨h.sized, fun buf hbuf => ?_, ?_⟩
    · rw [hcache] at hbuf
      obtain ⟨buf, hold, rfl⟩ := Option.map_eq_some_iff.mp hbuf
      rw [← h.cached buf hold, buf.truncate_bytes]
      exact if_pos (by omega)
    · rw [hcache]
      refine h.disk.imp_right ?_
      rintro ⟨buf, hold, hdirty⟩
      exact ⟨buf.zeroFrom (size - k.2 / sb.sBlocksize * sb.sBlocksize),
        by rw [hold, Option.map_some, buf.truncate_of_lt (by omega)], hdirty⟩
  · have hcache : (s.truncatePagecache sb ino size).cache k.1 (k.2 / sb.sBlocksize) =
        s.cache k.1 (k.2 / sb.sBlocksize) := by
      rw [truncatePagecache_cache, if_neg hino]
    refine ⟨h.sized, ?_, ?_⟩
    · rw [hcache]
      exact h.cached
    · rw [hcache]
      exact h.disk

end Keeps

/-! ## What keeps a state good -/

namespace Sound

theorem files (S : s.Sound config sb) {fs : FileSys} (I : fs.Inv config sb)
    (hsize : fs.dev.size = s.fs.dev.size)
    (hfiles : ∀ ino, (s.fs.files ino).isSome → (fs.files ino).isSome) :
    Sound config sb { s with fs } :=
  ⟨I, by rw [hsize]; exact S.zones, fun ino iblock buf h => hfiles ino (S.owner ino iblock buf h)⟩

theorem putBlock (S : s.Sound config sb) (hi : (s.fs.files ino).isSome) :
    (s.putBlock ino iblock buf).Sound config sb := by
  refine ⟨S.inv, S.zones, fun ino' iblock' buf' h => ?_⟩
  rw [putBlock_cache] at h
  split at h
  · next heq =>
    rw [heq.1]
    exact hi
  · exact S.owner ino' iblock' buf' h

theorem getBlock (M : Mounted config sb) (S : s.Sound config sb) {fs : FileSys}
    (hget : s.fs.getBlock sb behind ino iblock create = some (ret, fs)) :
    Sound config sb { s with fs } := by
  obtain ⟨I', g, hdev, -⟩ := FileSys.getBlock_spec M S.inv hget
  exact S.files I' (by rw [hdev]) fun _ => g.isSome

theorem truncate (S : s.Sound config sb) :
    (s.truncatePagecache sb ino size).Sound config sb := by
  refine ⟨S.inv, S.zones, fun ino' iblock buf h => ?_⟩
  rw [truncatePagecache_cache] at h
  split at h
  · split at h
    · cases h
    · obtain ⟨buf', hbuf', -⟩ := Option.map_eq_some_iff.mp h
      exact S.owner ino' iblock buf' hbuf'
  · exact S.owner ino' iblock buf h

end Sound

/-! ## Operations that write nothing -/

/-- What bringing in a block does: there is a block, and every byte is where it was. -/
structure Brought (config : Configuration) (sb : Sb) (behind : Nat → Nat) (s : PageCache)
    (ino iblock : Nat) (buf : Option CachedBlock) (s' : PageCache) : Prop where
  sound : s'.Sound config sb
  cached : ∃ b, buf = some b ∧ s'.cache ino iblock = some b
  keeps : ∀ k v, s.Keeps sb behind k v → s'.Keeps sb behind k v

theorem loadBlock_brought (M : Mounted config sb) (S : s.Sound config sb)
    (h : s.loadBlock sb behind ino iblock create = some (buf, s')) :
    Brought config sb behind s ino iblock buf s' := by
  unfold loadBlock at h
  cases hcache : s.cache ino iblock with
  | some b =>
    simp only [hcache, Option.some.injEq, Prod.mk.injEq] at h
    obtain ⟨rfl, rfl⟩ := h
    exact ⟨S, ⟨b, rfl, hcache⟩, fun _ _ h => h⟩
  | none =>
    simp only [hcache] at h
    obtain ⟨⟨bytes, s₁⟩, hread, h⟩ := Option.bind_eq_some_iff.mp h
    obtain ⟨⟨ret, fs⟩, hget, hread⟩ := Option.bind_eq_some_iff.mp hread
    obtain ⟨I', g, hdev, b, rfl, hb⟩ := FileSys.getBlock_spec M S.inv hget
    have S' : Sound config sb { s with fs } := S.getBlock M hget
    have hon : fs.dev.HasBlock sb.sBlocksize b := FileSys.block_onDevice M I' S'.zones hb
    simp only [if_pos hon] at hread
    cases hread
    cases h
    refine ⟨S'.putBlock (g.isSome (FileSys.isSome_of_getBlock hget)),
      ⟨_, rfl, putBlock_cache_self⟩, fun k v hk => ?_⟩
    have hk' := hk.getBlock M S.inv hget
    refine hk'.putBlock fun hin => ?_
    have hdisk : diskByte sb behind { s with fs } k = some v :=
      hk'.onDevice fun buf hbuf => by
        rw [hin.1, hin.2] at hbuf
        cases hcache.symm.trans hbuf
    refine .of_disk hk'.sized hin ?_ hdisk
    rintro _ ⟨⟩
    obtain ⟨b', hb', -, hv⟩ := diskByte_eq_some_iff.mp hdisk
    rw [hin.1, hin.2] at hb'
    cases hb.symm.trans hb'
    exact hv

theorem readpage_keeps (M : Mounted config sb) (S : s.Sound config sb)
    (h : s.readpage sb behind ino iblock = some s') :
    s'.Sound config sb ∧ ∀ k v, s.Keeps sb behind k v → s'.Keeps sb behind k v := by
  obtain ⟨inode, hi, h⟩ := Option.bind_eq_some_iff.mp h
  obtain ⟨-, h⟩ := FileSys.guard_bind_eq_some.mp h
  split at h
  · obtain ⟨⟨buf, s₁⟩, hload, h⟩ := Option.bind_eq_some_iff.mp h
    have B := loadBlock_brought M S hload
    cases h
    exact ⟨B.sound, B.keeps⟩
  · next hge =>
    cases hcache : s.cache ino iblock with
    | some buf =>
      simp only [hcache] at h
      cases h
      exact ⟨S, fun _ _ h => h⟩
    | none =>
      simp only [hcache] at h
      cases h
      refine ⟨S.putBlock (by rw [hi]; rfl), fun k v hk => hk.putBlock fun hin => ?_⟩
      -- the block is past `i_size`
      obtain ⟨inode', hi', hlt⟩ := hk.sized
      rw [hin.1] at hi'
      cases hi.symm.trans hi'
      have hle := Nat.div_mul_le_self k.2 sb.sBlocksize
      rw [hin.2] at hle
      omega

theorem evict_keeps (S : s.Sound config sb) (h : s.evict ino iblock = some s') :
    s'.Sound config sb ∧ ∀ k v, s.Keeps sb behind k v → s'.Keeps sb behind k v := by
  obtain ⟨buf, hbuf, h⟩ := Option.bind_eq_some_iff.mp h
  obtain ⟨hclean, h⟩ := FileSys.guard_bind_eq_some.mp h
  cases h
  refine ⟨S.putBlock (S.owner _ _ _ hbuf), fun k v hk => hk.putBlock fun hin => ?_⟩
  refine .of_disk hk.sized hin nofun (hk.onDevice fun buf' hbuf' => ?_)
  rw [hin.1, hin.2] at hbuf'
  cases hbuf.symm.trans hbuf'
  exact hclean

/-- What a read gives: the bytes up to `i_size`, each as it was kept. -/
theorem read_keeps (M : Mounted config sb) (S : s.Sound config sb)
    (hin : pos % sb.sBlocksize + n ≤ sb.sBlocksize)
    (h : s.read sb behind ino pos n = some (bytes, s')) :
    s'.Sound config sb ∧ (∀ k v, s.Keeps sb behind k v → s'.Keeps sb behind k v) ∧
      ∃ inode got, s.fs.files ino = some inode ∧ bytes = some got ∧
        got.length = min n (inode.iSize - pos) ∧
        ∀ i < got.length, ∀ v, s.Keeps sb behind (ino, pos + i) v → got[i]? = some v := by
  obtain ⟨inode, hi, h⟩ := Option.bind_eq_some_iff.mp h
  simp only at h
  split at h
  · next hzero =>
    cases h
    exact ⟨S, fun _ _ h => h, inode, [], hi, rfl, hzero.symm,
      fun i hi => absurd hi (Nat.not_lt_zero i)⟩
  · obtain ⟨⟨buf, s₁⟩, hload, h⟩ := Option.bind_eq_some_iff.mp h
    have B := loadBlock_brought M S hload
    obtain ⟨b, rfl, hcached⟩ := B.cached
    cases h
    refine ⟨B.sound, B.keeps, inode, _, hi, rfl, peek_length, fun i hlt v hk => ?_⟩
    rw [peek_length] at hlt
    obtain ⟨hdiv, hmod⟩ := FileSys.chunk_offset hin (Nat.le_add_right pos i) (by omega)
    have hv := (B.keeps _ v hk).cached b (by simp only [hdiv]; exact hcached)
    simp only [hmod, Nat.add_sub_cancel_left] at hv
    rw [peek_getElem? hlt, hv]

/-! ## Sizes -/

theorem setattr_keeps (M : Mounted config sb) (S : s.Sound config sb)
    (h : s.setattr sb ino prepared attr = some (ret, old, new, s')) :
    s'.Sound config sb ∧ ∀ k v, s.Keeps sb behind k v → ¬(k.1 = ino ∧ new < old ∧ new ≤ k.2) →
      s'.Keeps sb behind k v := by
  obtain ⟨inode, hi, h⟩ := Option.bind_eq_some_iff.mp h
  obtain ⟨hptr, -⟩ := minixSetattr_size prepared inode attr
  simp only [Option.pure_def, Option.some.injEq, Prod.mk.injEq] at h
  generalize minixSetattr prepared inode attr = r at h hptr
  obtain ⟨ret', inode'⟩ := r
  obtain ⟨-, rfl, rfl, rfl⟩ := h
  have hself : (s.fs.setInode ino inode').files ino = some inode' := Function.update_self ..
  have hother : ∀ {ino'}, ino' ≠ ino → (s.fs.setInode ino inode').files ino' = s.fs.files ino' :=
    fun hne => Function.update_of_ne hne ..
  have S' : Sound config sb { s with fs := s.fs.setInode ino inode' } := by
    refine S.files (S.inv.setInode hi hptr) rfl fun ino' h => ?_
    by_cases hino : ino' = ino
    · rw [hino, hself]
      rfl
    · rwa [hother hino]
  have hkeep : ∀ k v, s.Keeps sb behind k v →
      ¬(k.1 = ino ∧ inode'.iSize < inode.iSize ∧ inode'.iSize ≤ k.2) →
      Keeps sb behind { s with fs := s.fs.setInode ino inode' } k v ∧
        (k.1 = ino → k.2 < inode'.iSize) := by
    intro k v hk hcut
    have hlt : k.1 = ino → k.2 < inode'.iSize := by
      intro hino
      obtain ⟨inode₁, h₁, hlt⟩ := hk.sized
      rw [hino] at h₁
      cases hi.symm.trans h₁
      by_contra hge
      exact hcut ⟨hino, by omega, by omega⟩
    refine ⟨hk.files rfl (fun _ _ _ hb => ?_) fun inode₁ h₁ hlt₁ => ?_, hlt⟩
    · exact (FileSys.block_setInode hi hptr M S.inv).trans hb
    · by_cases hino : k.1 = ino
      · exact ⟨inode', hino ▸ hself, hlt hino⟩
      · exact ⟨inode₁, (hother hino).trans h₁, hlt₁⟩
  split
  · refine ⟨S'.truncate, fun k v hk hcut => ?_⟩
    obtain ⟨hk', hlt⟩ := hkeep k v hk hcut
    exact hk'.truncate hlt
  · exact ⟨S', fun k v hk hcut => (hkeep k v hk hcut).1⟩

/-! ## Writing -/

theorem minixWriteBegin_brought (M : Mounted config sb) (S : s.Sound config sb)
    (h : s.minixWriteBegin sb behind ino pos len = some (buf, s')) :
    s'.Sound config sb ∧ (s'.fs.files ino).isSome ∧
      (∃ b, buf = some b ∧
        ((∃ b', s'.cache ino (pos / sb.sBlocksize) = some b' ∧ b'.bytes = b.bytes) ∨
          len = sb.sBlocksize)) ∧
      ∀ k v, s.Keeps sb behind k v → s'.Keeps sb behind k v := by
  unfold minixWriteBegin at h
  cases hcache : s.cache ino (pos / sb.sBlocksize) with
  | some b =>
    simp only [hcache] at h
    split at h
    · cases h
      exact ⟨S, S.owner _ _ _ hcache, ⟨b, rfl, .inl ⟨b, hcache, rfl⟩⟩, fun _ _ h => h⟩
    · obtain ⟨⟨ret, fs⟩, hget, h⟩ := Option.bind_eq_some_iff.mp h
      obtain ⟨-, g, -, block, rfl, -⟩ := FileSys.getBlock_spec M S.inv hget
      cases h
      exact ⟨S.getBlock M hget, g.isSome (FileSys.isSome_of_getBlock hget),
        ⟨_, rfl, .inl ⟨b, hcache, rfl⟩⟩, fun k v hk => hk.getBlock M S.inv hget⟩
  | none =>
    simp only [hcache] at h
    split at h
    · next hlen =>
      obtain ⟨⟨ret, fs⟩, hget, h⟩ := Option.bind_eq_some_iff.mp h
      obtain ⟨-, g, -, b, rfl, -⟩ := FileSys.getBlock_spec M S.inv hget
      cases h
      exact ⟨S.getBlock M hget, g.isSome (FileSys.isSome_of_getBlock hget), ⟨_, rfl, .inr hlen⟩,
        fun k v hk => hk.getBlock M S.inv hget⟩
    · obtain ⟨⟨buf', s₁⟩, hload, h⟩ := Option.bind_eq_some_iff.mp h
      have B := loadBlock_brought M S hload
      obtain ⟨b, rfl, hcached⟩ := B.cached
      cases h
      exact ⟨B.sound, B.sound.owner _ _ _ hcached, ⟨b, rfl, .inl ⟨b, hcached, rfl⟩⟩, B.keeps⟩

/-- A write goes in whole; what it covers holds the new bytes, what it does not is kept. -/
theorem write_keeps (M : Mounted config sb) (S : s.Sound config sb)
    (hin : pos % sb.sBlocksize + chunk.length ≤ sb.sBlocksize)
    (h : s.write sb behind ino pos chunk = some (n, s')) :
    s'.Sound config sb ∧ n = chunk.length ∧
      (∀ k v, s.Keeps sb behind k v → ¬(k.1 = ino ∧ pos ≤ k.2 ∧ k.2 < pos + chunk.length) →
        s'.Keeps sb behind k v) ∧
      ∀ i v, chunk[i]? = some v → s'.Keeps sb behind (ino, pos + i) v := by
  obtain ⟨⟨buf, s₁⟩, hbegin, h⟩ := Option.bind_eq_some_iff.mp h
  obtain ⟨S₁, hfile, ⟨buf, rfl, hbuf⟩, hkeep⟩ := minixWriteBegin_brought M S hbegin
  cases h
  obtain ⟨inode, hi⟩ := Option.isSome_iff_exists.mp hfile
  obtain ⟨I₂, hblock, hsize⟩ := writeEnd_files M S₁.inv
  have S₂ : Sound config sb { s₁ with fs := s₁.fs.writeEnd ino pos chunk.length } := by
    refine S₁.files I₂ rfl fun ino' h => ?_
    obtain ⟨inode₁, h₁⟩ := Option.isSome_iff_exists.mp h
    obtain ⟨inode₂, h₂, -⟩ := hsize ino' inode₁ h₁
    rw [h₂]
    rfl
  have hself : (s₁.fs.writeEnd ino pos chunk.length).files ino =
      some (genericWriteEnd inode pos chunk.length) := by
    rw [writeEnd_eq hi]
    exact Function.update_self ..
  refine ⟨S₂.putBlock (by rw [hself]; rfl), rfl, fun k v hk hout => ?_, fun i v hv => ?_⟩
  · have hk₁ := hkeep k v hk
    have hk₂ : Keeps sb behind { s₁ with fs := s₁.fs.writeEnd ino pos chunk.length } k v := by
      refine hk₁.files rfl (fun _ _ _ hb => (hblock ..).trans hb) fun inode₁ h₁ hlt => ?_
      obtain ⟨inode₂, h₂, hle⟩ := hsize _ inode₁ h₁
      exact ⟨inode₂, h₂, Nat.lt_of_lt_of_le hlt hle⟩
    refine hk₂.putBlock fun hk => ?_
    obtain ⟨rfl, hiblock⟩ := hk
    refine ⟨hk₂.sized, ?_, .inr ⟨_, by rw [hiblock, putBlock_cache_self], rfl⟩⟩
    rw [hiblock, putBlock_cache_self]
    rintro _ ⟨⟩
    have hmod := Nat.mod_lt k.2 M.blocksize_pos
    have hclear := FileSys.outside_chunk hiblock fun h => hout ⟨rfl, h⟩
    change poke buf.bytes (pos % sb.sBlocksize) chunk (k.2 % sb.sBlocksize) = v
    rw [poke_outside (by omega)]
    rcases hbuf with ⟨buf', hcached, hbytes⟩ | hlen
    · rw [← hbytes]
      exact hk₁.cached buf' (by rw [hiblock]; exact hcached)
    · exact absurd ⟨by omega, by omega⟩ hclear
  · obtain ⟨hlt, hget⟩ := List.getElem?_eq_some_iff.mp hv
    obtain ⟨hdiv, hmod⟩ := FileSys.chunk_offset hin (Nat.le_add_right pos i) (by omega)
    refine ⟨⟨_, hself, ?_⟩, ?_, .inr ⟨_, by rw [hdiv, putBlock_cache_self], rfl⟩⟩
    · rw [FileSys.genericWriteEnd_iSize]
      change pos + i < _
      omega
    · rw [hdiv, putBlock_cache_self]
      rintro _ ⟨⟩
      change poke buf.bytes (pos % sb.sBlocksize) chunk ((pos + i) % sb.sBlocksize) = v
      rw [hmod, Nat.add_sub_cancel_left, poke_inside hlt, hget]

/-! ## Which calls have a result -/

/-- A file block that can be had: its zone is assigned, or there is a free one. -/
def Ready (config : Configuration) (sb : Sb) (s : PageCache) (ino iblock : Nat) : Prop :=
  ∃ inode, s.fs.files ino = some inode ∧
    ∃ h : iblock / config.blocksPerZone < ZONE_PTR_IN_INODE_NUM,
      inode.aiZonePtr ⟨_, h⟩ ≠ 0 ∨ ∃ j < 8 * sb.sBlocksize, bit (s.fs.zmap 0) j = false

theorem Ready.getBlock (M : Mounted config sb) (I : s.fs.Inv config sb)
    (h : s.Ready config sb ino iblock) (behind : Nat → Nat) (create : Bool) :
    ∃ r, s.fs.getBlock sb behind ino iblock create = some r := by
  obtain ⟨inode, hi, hidx, hfree⟩ := h
  obtain ⟨b, fs, hget⟩ := FileSys.exists_getBlock M I hi hidx hfree behind create
  exact ⟨_, hget⟩

/-- A mapped byte, once its block is written from `m`. -/
theorem diskByte_written (M : Mounted config sb) {fs : FileSys} (I : fs.Inv config sb)
    (hb : fs.block sb behind ino iblock = some b) (hon : fs.dev.HasBlock sb.sBlocksize b) {m : Mem}
    (hk : InBlock sb k ino iblock) :
    diskByte sb behind { s with fs := { fs with
      dev := fs.dev.write (b * sb.sBlocksize) (peek m 0 sb.sBlocksize) } } k =
        some (m (k.2 % sb.sBlocksize)) := by
  obtain ⟨w, hw⟩ : ∃ w, diskByte sb behind { s with fs := { fs with
      dev := fs.dev.write (b * sb.sBlocksize) (peek m 0 sb.sBlocksize) } } k = some w := by
    refine ⟨_, diskByte_eq_some_iff.mpr ⟨b, ?_, hon, rfl⟩⟩
    rw [hk.1, hk.2]
    exact hb
  rw [hw, (diskByte_write M I hb hw).1 hk]

/-- The other bytes. -/
theorem diskByte_unwritten (M : Mounted config sb) {fs : FileSys} (I : fs.Inv config sb)
    (hb : fs.block sb behind ino iblock = some b) {m : Mem} (hk : ¬InBlock sb k ino iblock)
    (h : diskByte sb behind { s with fs } k = some v) :
    diskByte sb behind { s with fs := { fs with
      dev := fs.dev.write (b * sb.sBlocksize) (peek m 0 sb.sBlocksize) } } k = some v := by
  obtain ⟨w, hw⟩ : ∃ w, diskByte sb behind { s with fs := { fs with
      dev := fs.dev.write (b * sb.sBlocksize) (peek m 0 sb.sBlocksize) } } k = some w := by
    obtain ⟨b', hb', hon', -⟩ := diskByte_eq_some_iff.mp h
    exact ⟨_, diskByte_eq_some_iff.mpr ⟨b', hb', hon', rfl⟩⟩
  rw [hw, ← h, (diskByte_write M I hb hw).2 hk]

theorem writepage_keeps (M : Mounted config sb) (S : s.Sound config sb)
    (h : s.writepage sb behind ino iblock = some s') :
    s'.Sound config sb ∧ ∀ k v, s.Keeps sb behind k v → s'.Keeps sb behind k v := by
  obtain ⟨inode, hi, h⟩ := Option.bind_eq_some_iff.mp h
  obtain ⟨buf, hbuf, h⟩ := Option.bind_eq_some_iff.mp h
  obtain ⟨-, h⟩ := FileSys.guard_bind_eq_some.mp h
  simp only at h
  -- a kept byte of the block is below `i_size`, so it is not zeroed
  have hbelow : ∀ k v, s.Keeps sb behind k v → InBlock sb k ino iblock →
      iblock * sb.sBlocksize < inode.iSize ∧
      (buf.zeroFrom (inode.iSize - iblock * sb.sBlocksize)).bytes (k.2 % sb.sBlocksize) = v := by
    intro k v hk hin
    obtain ⟨inode', hi', hlt⟩ := hk.sized
    rw [hin.1] at hi'
    cases hi.symm.trans hi'
    have hsum := Nat.div_add_mod' k.2 sb.sBlocksize
    rw [hin.2] at hsum
    refine ⟨by omega, ?_⟩
    rw [← hk.cached buf (by rw [hin.1, hin.2]; exact hbuf)]
    exact if_pos (by omega)
  generalize hm : (buf.zeroFrom (inode.iSize - iblock * sb.sBlocksize)).bytes = m at h hbelow
  split at h
  · obtain ⟨⟨ret, fs⟩, hget, h⟩ := Option.bind_eq_some_iff.mp h
    obtain ⟨I', g, hdev, b, rfl, hb⟩ := FileSys.getBlock_spec M S.inv hget
    have S' : Sound config sb { s with fs } := S.getBlock M hget
    have hon : fs.dev.HasBlock sb.sBlocksize b := FileSys.block_onDevice M I' S'.zones hb
    simp only [if_pos hon] at h
    cases h
    have Sw : Sound config sb { s with fs := { fs with
        dev := fs.dev.write (b * sb.sBlocksize) (peek m 0 sb.sBlocksize) } } :=
      S'.files ⟨I'.clear, I'.named, I'.owned, I'.distinct⟩ rfl fun _ h => h
    refine ⟨Sw.putBlock (g.isSome (FileSys.isSome_of_getBlock hget)), fun k v hk => ?_⟩
    have hk' := hk.getBlock M S.inv hget
    by_cases hin : InBlock sb k ino iblock
    · obtain ⟨-, hv⟩ := hbelow k v hk hin
      refine .of_disk hk'.sized hin ?_ ?_
      · rintro _ ⟨⟩
        exact hv
      · rw [diskByte_written M I' hb hon hin, hv]
    · have hkw : Keeps sb behind { s with fs := { fs with
          dev := fs.dev.write (b * sb.sBlocksize) (peek m 0 sb.sBlocksize) } } k v :=
        ⟨hk'.sized, hk'.cached, hk'.disk.imp_left fun h => diskByte_unwritten M I' hb hin h⟩
      exact hkw.putBlock fun h => absurd h hin
  · next hge =>
    cases h
    exact ⟨S.putBlock (by rw [hi]; rfl), fun k v hk => hk.putBlock fun hin =>
      absurd (hbelow k v hk hin).1 hge⟩

end PageCache

/-! ## Runs -/

open PageCache

/-- The byte arrays after one more operation; what a reduction of a size cuts off is forgotten. -/
def recordPage (spec : Nat × Nat → Option Byte) : PageOp × PageOut → Nat × Nat → Option Byte
  | (.write ino pos chunk, .written n) => FileSys.store spec ino pos (chunk.take n)
  | (.setattr ino _ _, .sized _ old new) => fun k =>
    if k.1 = ino ∧ new < old ∧ new ≤ k.2 then none else spec k
  | _ => spec

/-- What a history has written last at each offset of each file. -/
def lastPageWrite (hist : List (PageOp × PageOut)) : Nat × Nat → Option Byte :=
  hist.foldl recordPage fun _ => none

section
variable {s s' : PageCache}

theorem PageStep.keeps (M : Mounted config sb) {spec : Nat × Nat → Option Byte}
    (S : s.Sound config sb) (h : ∀ k v, spec k = some v → s.Keeps sb behind k v)
    (hs : PageStep sb behind s op out s') :
    s'.Sound config sb ∧
      ∀ k v, recordPage spec (op, out) k = some v → s'.Keeps sb behind k v := by
  cases hs with
  | newInode hstep =>
    obtain ⟨I', hdev, hblock, hfiles⟩ := FileSys.exec_newInode M S.inv hstep
    refine ⟨S.files I' (by rw [hdev]) fun ino hi => ?_, fun k v hk => ?_⟩
    · obtain ⟨inode, hi⟩ := Option.isSome_iff_exists.mp hi
      rw [hfiles ino inode hi]
      rfl
    · exact (h k v hk).files hdev (fun ino iblock _ hb => (hblock ino iblock).trans hb)
        fun inode hi hlt => ⟨inode, hfiles _ inode hi, hlt⟩
  | write hpos hin hstep =>
    obtain ⟨S', rfl, hkeep, hnew⟩ := write_keeps M S hin hstep
    refine ⟨S', fun k v hk => ?_⟩
    simp only [recordPage, List.take_length, FileSys.store] at hk
    split at hk
    · next hcov =>
      obtain ⟨ino, o⟩ := k
      obtain ⟨rfl, hle, -⟩ := hcov
      have hnew := hnew _ v hk
      rwa [show ∀ pos o : Nat, pos ≤ o → pos + (o - pos) = o by omega] at hnew
      exact hle
    · next hout => exact hkeep k v (h k v hk) hout
  | read hin hstep =>
    obtain ⟨S', hkeep, -⟩ := read_keeps M S hin hstep
    exact ⟨S', fun k v hk => hkeep k v (h k v hk)⟩
  | readpage hstep =>
    obtain ⟨S', hkeep⟩ := readpage_keeps M S hstep
    exact ⟨S', fun k v hk => hkeep k v (h k v hk)⟩
  | writepage hstep =>
    obtain ⟨S', hkeep⟩ := writepage_keeps M S hstep
    exact ⟨S', fun k v hk => hkeep k v (h k v hk)⟩
  | evict hstep =>
    obtain ⟨S', hkeep⟩ := evict_keeps S hstep
    exact ⟨S', fun k v hk => hkeep k v (h k v hk)⟩
  | setattr hstep =>
    obtain ⟨S', hkeep⟩ := setattr_keeps M S hstep
    refine ⟨S', fun k v hk => ?_⟩
    simp only [recordPage] at hk
    split at hk
    · cases hk
    · next hcut => exact hkeep k v (h k v hk) hcut

theorem run_keeps (M : Mounted config sb) (S : s.Sound config sb)
    (t : Trace (PageStep sb behind) s hist s') :
    s'.Sound config sb ∧ ∀ k v, lastPageWrite hist k = some v → s'.Keeps sb behind k v := by
  induction t with
  | nil => exact ⟨S, fun _ _ h => nomatch h⟩
  | snoc _ hstep ih =>
    rw [lastPageWrite, List.foldl_append]
    exact hstep.keeps M ih.1 ih.2

end

end Aufs
