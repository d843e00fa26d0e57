import Aufs.Verify.MappedBlocks

/-! Which inodes are on disk as they are in memory. `aufs_new_inode`, `minix_add_link`,
`minix_setattr` and `generic_write_end` mark what they change dirty; `aufs_get_block` stores a zone
pointer and does not. -/

namespace Aufs
open Bytes Word

variable {config : Configuration} {sb : Sb}

/-- The slot decodes to the zone pointers and the size of the inode. -/
def Persisted (inode : AufsInode) (slot : Mem) : Prop :=
  ∀ other, (aufsInodeFill other slot).aiZonePtr = inode.aiZonePtr ∧
    (aufsInodeFill other slot).iSize = inode.iSize

/-- The cache after all dirty inodes have been written back. -/
def InodeCache.sync (ids : OverflowIds) (s : InodeCache) : InodeCache :=
  { s with
    inodes := fun ino => (s.inodes ino).map fun inode => { inode with iDirty := false }
    slot := fun ino =>
      match s.inodes ino with
      | some inode =>
        if inode.iDirty then v2MinixUpdateInode ids inode (s.slot ino) else s.slot ino
      | none => s.slot ino }

/-- A step that stores a zone pointer does so in an inode that is dirty or becomes dirty in the same
step, and neither the pointer nor the size of a directory outgrows its word in the slot. -/
def InodeCache.RecordsOk (config : Configuration) (sb : Sb) (s : InodeCache) : CacheOp → Prop
  | .getBlock ino iblock _ _ => ∀ inode ∈ s.inodes ino,
    config.HasZone inode iblock ∨ sb.MapFull s.zmap ∨
      inode.iDirty = true ∧ sb.FreeZone config s.zmap
  | .addLink ino order env content name _ => ∀ inode ∈ s.inodes ino,
    ∀ pos ∈ addLinkPos order env inode content name,
      (config.HasZone inode (pos / sb.sBlocksize) ∨ sb.MapFull s.zmap ∨
        (inode.iDirty = true ∨ env.blockRead = .ok ()) ∧ sb.FreeZone config s.zmap) ∧
      (env.blockRead = .ok () → pos + AUFS_DIR_SIZE < 2 ^ 32)
  | _ => True

/-- Zone pointers and size fit the slot, and a clean inode is in it. -/
structure Storable (inode : AufsInode) (slot : Mem) : Prop where
  ptr : ∀ i, inode.aiZonePtr i < 2 ^ 32
  size : inode.iSize < 2 ^ 32
  clean : inode.iDirty = false → Persisted inode slot

theorem Persisted.congr (h : Persisted inode raw) (hptr : inode'.aiZonePtr = inode.aiZonePtr)
    (hsize : inode'.iSize = inode.iSize) : Persisted inode' raw := by
  intro other
  rw [hptr, hsize]
  exact h other

theorem Storable.change (h : Storable inode raw) (hc : DirtyChange inode inode') :
    Storable inode' raw := by
  rcases hc with rfl | ⟨hdirty, hptr, hsize⟩
  · exact h
  · refine ⟨by rw [hptr]; exact h.ptr, ?_, fun hclean => ?_⟩
    · have := h.size
      rcases hsize with hsize | hsize
      · omega
      · exact Nat.lt_of_le_of_lt hsize (by decide)
    · cases hdirty.symm.trans hclean

/-- Writing back. -/
theorem Storable.update (h : Storable inode raw) :
    Persisted inode (v2MinixUpdateInode ids inode raw) :=
  fun _ => aufsInodeFill_update h.ptr h.size

section
variable (R : sb.Reads config) (H : config.Accepted) {s s' : InodeCache} {inode : AufsInode}
include R H

/-- A mapping keeps the zone pointers, or stores a number below `2 ^ 31`. -/
theorem getBlock_ptrs {zmap : MapBlocks}
    (hidx : iblock / config.blocksPerZone < ZONE_PTR_IN_INODE_NUM)
    (hptr : ∀ i, inode.aiZonePtr i < 2 ^ 32)
    (hok : config.HasZone inode iblock ∨ sb.MapFull zmap ∨ P ∧ sb.FreeZone config zmap)
    (behind : Nat → Nat) (create : Bool) :
    (aufsGetBlock sb zmap inode behind iblock sb.sBlocksize create).inode = inode ∨
    P ∧ ∀ i,
      (aufsGetBlock sb zmap inode behind iblock sb.sBlocksize create).inode.aiZonePtr i <
        2 ^ 32 := by
  rcases R.getBlock_cases H hidx zmap inode behind create with
    ⟨-, heq⟩ | ⟨-, -, heq⟩ | ⟨j, hj, hfirst, hno, heq⟩
  · exact .inl (by rw [heq])
  · exact .inl (by rw [heq])
  · rcases hok with hhas | hfull | ⟨hP, hfree⟩
    · exact absurd hhas hno
    · rw [hfirst] at hj
      cases (minixFindFirstZeroBit_lt hj).symm.trans (hfull _ hj)
    · refine .inr ⟨hP, fun i => ?_⟩
      have hfit := hfree.2
      rw [← hfirst] at hfit
      rw [heq, R.zonePtr_eq H hj hfit]
      by_cases hi : i = ⟨_, hidx⟩
      · rw [hi, AufsInode.setZonePtr_self]
        exact Nat.lt_trans hfit (by decide)
      · rw [AufsInode.setZonePtr_of_ne _ _ _ hi]
        exact hptr i

theorem CacheStep.storable (S : s.All Storable) (hs : CacheStep sb s op o s')
    (hok : s.RecordsOk config sb op) : s'.All Storable := by
  cases hs with
  | @newInode task leftover dir mode inode imap hnew =>
    obtain ⟨new, j, hn, -, -, -, -, rfl⟩ := aufsNewInode_ok R.inodeMapBlocks hnew
    cases hn
    have hput :
        (s.put j (initInode task (Aufs.newInode leftover) dir mode j) s.zmap).All Storable := by
      refine S.put ⟨fun _ => Nat.two_pow_pos 32, ?_, nofun⟩
      rw [initInode_iSize]
      exact Nat.two_pow_pos 32
    exact hput
  | noInode => exact S
  | @getBlock ino iblock create behind inode hi hidx =>
    rw [R.zoneIdx_eq] at hidx
    have hold := S ino inode hi
    obtain ⟨ptr, hinode⟩ := aufsGetBlock_inode sb s.zmap inode behind iblock sb.sBlocksize create
    rcases getBlock_ptrs R H hidx hold.ptr (hok inode hi) behind create with heq | ⟨hdirty, hptrs⟩
    · rw [heq]
      exact S.put hold
    · refine S.put ⟨hptrs, by rw [hinode]; exact hold.size, fun hclean => ?_⟩
      rw [hinode] at hclean
      cases hdirty.symm.trans hclean
  | writeEnd hi hle => exact S.put ((S _ _ hi).change (genericWriteEnd_change hle))
  | @addLink ino order env content name child inode hi hidx =>
    simp only [R.zoneIdx_eq] at hidx
    have hold := S ino inode hi
    rcases R.minixAddLink_inode H hidx s.zmap child with
      ⟨-, hdir, hzmap⟩ | ⟨pos, hpos, hzmap, hptr, hrest⟩
    · rw [hdir]
      exact S.put hold
    · obtain ⟨hmap, hsize⟩ := hok inode hi pos hpos
      have hptrs := getBlock_ptrs R H (hidx pos hpos) hold.ptr hmap env.behind true
      rcases hrest with ⟨hread, hdirty, hsame⟩ | ⟨hread, hdirty, hgrown⟩
      · refine S.put ⟨?_, by rw [hsame]; exact hold.size, fun hclean => ?_⟩
        · rw [hptr]
          rcases hptrs with heq | ⟨-, hptrs⟩
          · rw [heq]
            exact hold.ptr
          · exact hptrs
        · rw [hdirty] at hclean
          rcases hptrs with heq | ⟨hset | hset, -⟩
          · exact (hold.clean hclean).congr (hptr.trans (by rw [heq])) hsame
          · cases hset.symm.trans hclean
          · exact absurd hset hread
      · refine S.put ⟨?_, ?_, fun hclean => ?_⟩
        · rw [hptr]
          rcases hptrs with heq | ⟨-, hptrs⟩
          · rw [heq]
            exact hold.ptr
          · exact hptrs
        · rw [hgrown]
          exact Nat.max_lt.mpr ⟨hold.size, hsize hread⟩
        · cases hdirty.symm.trans hclean
  | setattr hi => exact S.put ((S _ _ hi).change (minixSetattr_change ..))
  | touch hi => exact S.put ((S _ _ hi).change (.inr ⟨rfl, rfl, .inl rfl⟩))
  | writeInode hi hdirty =>
    have hold := S _ _ hi
    exact S.writeInode ⟨hold.ptr, hold.size, fun _ => hold.update.congr rfl rfl⟩
  | reload hi hclean hget =>
    have hold := S _ _ hi
    have hsame := hold.clean hclean
    obtain rfl := aufsInodeGet_ok hget
    refine S.put ⟨fun i => ?_, ?_, fun _ other => ?_⟩
    · rw [(hsame _).1]
      exact hold.ptr i
    · rw [(hsame _).2]
      exact hold.size
    · rw [(hsame other).1, (hsame other).2, (hsame _).1, (hsame _).2]
      exact ⟨rfl, rfl⟩
  | gone => exact S.evict

theorem InodeCache.Mounts.storable {image : Image} {env : MkfsEnv}
    (hf : image.Formatted config env) (hs : s.Mounts sb image) : s.All Storable := by
  obtain ⟨leftover, inode, hget, hinodes⟩ := hs.inodes
  obtain ⟨root, hroot, his⟩ := aufsInodeGet_root H R hf leftover
  obtain rfl : root = inode := Except.ok.inj (hroot.symm.trans hget)
  intro ino inode hi
  simp only [hinodes] at hi
  split at hi
  case isFalse => cases hi
  case isTrue heq =>
    cases hi
    subst heq
    refine ⟨fun i => ?_, ?_, fun _ other => ?_⟩
    · rw [his.zone]
      split
      · exact u32_lt
      · exact Nat.two_pow_pos 32
    · rw [his.size]
      decide
    · rw [hs.slot, aufsInodeGet_ok hget]
      exact ⟨rfl, rfl⟩

end

/-- Where a file block is mapped depends on the zone pointers of its inode alone. -/
theorem aufsGetBlock_ret_congr {inode inode' : AufsInode}
    (h : inode'.aiZonePtr = inode.aiZonePtr) (zmap : MapBlocks) (behind : Nat → Nat)
    (iblock bSize : Nat) (create : Bool) :
    (aufsGetBlock sb zmap inode' behind iblock bSize create).ret =
      (aufsGetBlock sb zmap inode behind iblock bSize create).ret := by
  have hptr : ∀ idx, inode'.zonePtr behind idx = inode.zonePtr behind idx := by
    intro idx
    simp only [AufsInode.zonePtr, h]
  simp only [aufsGetBlock, hptr]
  split
  · rfl
  · split
    · rfl
    · split
      · split
        · rfl
        · rfl
      · rfl

/-- In every run whose steps record what they store, a clean inode is in its slot; and once the
dirty ones have been written back, loading any inode again changes neither its size nor where a
file block is mapped. -/
theorem clean_inodes_persisted {deviceSize : String → Nat} {argv : List String} {env : MkfsEnv}
    {fuel : Nat} {dev : Device} {image : Image} {hist : List (CacheOp × Unit)}
    {s₀ s : InodeCache} (hargs : parseArgs deviceSize argv = .ok config)
    (himage : mkfs env fuel config dev = some image)
    (hsb : sb = aufsFillSb image.superBlock) (hmount : s₀.Mounts sb image)
    (t : Trace (fun s op o s' => CacheStep sb s op o s' ∧ s.RecordsOk config sb op) s₀ hist s) :
    (∀ ino inode, s.inodes ino = some inode → inode.iDirty = false →
      Persisted inode (s.slot ino)) ∧
    ∀ ids ino inode leftover inode', s.inodes ino = some inode →
      aufsInodeGet leftover ino ((s.sync ids).slot ino) = .ok inode' →
      inode'.iSize = inode.iSize ∧
      ∀ behind iblock create,
        (aufsGetBlock sb s.zmap inode' behind iblock sb.sBlocksize create).ret =
          (aufsGetBlock sb s.zmap inode behind iblock sb.sBlocksize create).ret := by
  have H := accepted_of_parseArgs hargs
  have hf := mkfs_formatted H himage
  have R : sb.Reads config := hsb ▸ aufsFillSb_reads H hf
  have S : s.All Storable := by
    induction t with
    | nil => exact hmount.storable R H hf
    | snoc _ hs ih => exact hs.1.storable R H ih hs.2
  refine ⟨fun ino inode hi hclean => (S ino inode hi).clean hclean, ?_⟩
  intro ids ino inode leftover inode' hi hget
  have hslot : Persisted inode ((s.sync ids).slot ino) := by
    simp only [InodeCache.sync, hi]
    cases hdirty : inode.iDirty with
    | true => exact (S ino inode hi).update
    | false => exact (S ino inode hi).clean hdirty
  obtain rfl := aufsInodeGet_ok hget
  exact ⟨(hslot _).2, fun behind iblock create => aufsGetBlock_ret_congr (hslot _).1 ..⟩

/-! ## A file written back too early -/

theorem write_back (sb : Sb) (ids : OverflowIds) (hi : s.inodes ino = some inode)
    (hdirty : inode.iDirty = true) :
    ∃ s', CacheStep sb s (.writeInode ino) () s' ∧ s'.zmap = s.zmap ∧
      s'.inodes ino = some { inode with iDirty := false } ∧
      s'.slot ino = v2MinixUpdateInode ids inode (s.slot ino) := by
  have hs : CacheStep sb s (.writeInode ino) ()
      { s.put ino { inode with iDirty := false } s.zmap with
        slot := Function.update s.slot ino (v2MinixUpdateInode ids inode (s.slot ino)) } :=
    .writeInode hi hdirty
  refine ⟨_, hs, rfl, ?_, ?_⟩
  · change Function.update s.inodes ino _ ino = _
    exact Function.update_self ..
  · change Function.update s.slot ino _ ino = _
    exact Function.update_self ..

/-- A new file is written back, and then its first block is mapped, as reading it does: it stays
clean, and its slot has no zone. -/
theorem clean_inode_lost :
    ∃ image s₀ s inode, mkfs rootEnv 1 fourZones (blankDevice (2 ^ 20)) = some image ∧
      InodeCache.Mounts (aufsFillSb image.superBlock) image s₀ ∧
      Trace (CacheStep (aufsFillSb image.superBlock)) s₀
        [(newFile, ()), (.writeInode 2, ()), (.getBlock 2 0 true fun _ => 0, ())] s ∧
      s.inodes 2 = some inode ∧ inode.iDirty = false ∧ ¬Persisted inode (s.slot 2) := by
  obtain ⟨image, s₀, s₁, inode, himage, hf, hmount, hs₁, hz₁, hi₁, hdirty, hptr⟩ := newFile_step
  have H := accepted_of_parseArgs fourZones_parsed
  have R := aufsFillSb_reads H hf
  have hidx : 0 / fourZones.blocksPerZone < ZONE_PTR_IN_INODE_NUM := by decide
  obtain ⟨s₂, hs₂, hz₂, hi₂, hslot₂⟩ :=
    write_back (aufsFillSb image.superBlock) defaultIds hi₁ hdirty
  have Z₂ : ZonesTaken fourZones (aufsFillSb image.superBlock) s₂.zmap 2 := by
    rw [hz₂, hz₁]
    exact (hmount.sound R H hf).taken
  obtain ⟨s₃, hs₃, -, -, hi₃⟩ :=
    take_zone R H Z₂ (by decide) (fourZones_fit R (by decide)) hi₂ hidx (hptr _)
  have hslot₃ : s₃.slot = s₂.slot := by
    cases hs₃
    rfl
  refine ⟨image, s₀, s₃, _, himage, hmount, ((Trace.single hs₁).snoc hs₂).snoc hs₃, hi₃, rfl, ?_⟩
  intro hpersisted
  have hzero := congrFun (hpersisted inode).1 ⟨_, hidx⟩
  rw [hslot₃, hslot₂, AufsInode.setZonePtr_self] at hzero
  have hword := be32_update_zonePtr defaultIds (s₁.slot 2) inode ⟨_, hidx⟩
  rw [hptr, Nat.zero_mod] at hword
  exact absurd (hword.symm.trans hzero) (Nat.ne_of_lt (Nat.add_pos_left (by decide) _))

/-- Mapped before it is written back, the file is in its slot. -/
theorem clean_inodes_fourZones :
    ∃ image s₀, ∃ s : InodeCache, ∃ inode,
      mkfs rootEnv 1 fourZones (blankDevice (2 ^ 20)) = some image ∧
      Trace (CacheStep (aufsFillSb image.superBlock)) s₀
        [(newFile, ()), (.getBlock 2 0 true fun _ => 0, ()), (.writeInode 2, ())] s ∧
      s.inodes 2 = some inode ∧ inode.iDirty = false ∧ Persisted inode (s.slot 2) := by
  obtain ⟨image, s₀, s₁, inode, himage, hf, hmount, hs₁, hz₁, hi₁, hdirty, hptr⟩ := newFile_step
  have H := accepted_of_parseArgs fourZones_parsed
  have R := aufsFillSb_reads H hf
  have hfit := fourZones_fit R (show 2 < 4 by decide)
  have hidx : 0 / fourZones.blocksPerZone < ZONE_PTR_IN_INODE_NUM := by decide
  have Z₁ : ZonesTaken fourZones (aufsFillSb image.superBlock) s₁.zmap 2 :=
    hz₁ ▸ (hmount.sound R H hf).taken
  obtain ⟨s₂, hs₂, -, -, hi₂⟩ := take_zone R H Z₁ (by decide) hfit hi₁ hidx (hptr _)
  obtain ⟨s₃, hs₃, -, hi₃, -⟩ := write_back (aufsFillSb image.superBlock) defaultIds hi₂ hdirty
  have hok₂ : s₁.RecordsOk fourZones (aufsFillSb image.superBlock)
      (.getBlock 2 0 true fun _ => 0) := by
    intro inode' hi
    cases hi₁.symm.trans hi
    exact .inr (.inr ⟨hdirty, (Z₁.freeZone_iff R H).mpr ⟨by decide, hfit⟩⟩)
  have t : Trace (fun s op o s' => CacheStep (aufsFillSb image.superBlock) s op o s' ∧
      s.RecordsOk fourZones (aufsFillSb image.superBlock) op) s₀ _ s₃ :=
    ((Trace.single ⟨hs₁, trivial⟩).snoc ⟨hs₂, hok₂⟩).snoc ⟨hs₃, trivial⟩
  refine ⟨image, s₀, s₃, _, himage, t.mono And.left, hi₃, rfl, ?_⟩
  exact (clean_inodes_persisted fourZones_parsed himage rfl hmount t).1 2 _ hi₃ rfl

end Aufs
