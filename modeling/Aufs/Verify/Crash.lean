import Aufs.Verify.Remount

/-! What a crash leaves. At any moment the device alone holds, for every inode that has been written
back, a state that the inode had: the zones in it still belong to it. The maps on the device may lag
behind, which is safe once both have been written back after the last inode: then what the device
holds is a file system again, with every byte of the files that were written back. -/

namespace Aufs
open Bytes Word

variable {config : Configuration} {sb : Sb} {behind : Nat → Nat}

/-- Map `m'` marks all that `m` marks. -/
def Sb.MapLe (sb : Sb) (m m' : Mem) : Prop :=
  ∀ j < 8 * sb.sBlocksize, bit m j = true → bit m' j = true

namespace Sb.MapLe

variable {m m' m'' : Mem}

theorem refl : sb.MapLe m m := fun _ _ h => h

theorem trans (h : sb.MapLe m m') (h' : sb.MapLe m' m'') : sb.MapLe m m'' :=
  fun j hj hbit => h' j hj (h j hj hbit)

end Sb.MapLe

/-- Zone pointers and bits that are set stay. -/
structure FileSys.Later (sb : Sb) (s s' : FileSys) : Prop where
  ptr : ∀ ino i p, s.Ptr ino i p → s'.Ptr ino i p
  zmap : sb.MapLe (s.zmap 0) (s'.zmap 0)
  imap : sb.MapLe (s.imap 0) (s'.imap 0)

namespace FileSys

variable {s s' : FileSys}

theorem Later.refl : Later sb s s := ⟨fun _ _ _ h => h, .refl, .refl⟩

theorem Later.trans (h : Later sb s s') (h' : Later sb s' s'') : Later sb s s'' where
  ptr ino i p hp := h'.ptr ino i p (h.ptr ino i p hp)
  zmap := h.zmap.trans h'.zmap
  imap := h.imap.trans h'.imap

theorem Grows.later (g : Grows config sb ino s s') : Later sb s s' where
  ptr := g.ptr
  zmap j _ hbit := by
    by_contra hne
    have := (g.zmap j fun heq => hne (heq.trans hbit)).1
    cases hbit.symm.trans this
  imap _ _ hbit := by rwa [g.imap]

theorem Edits.later (M : Mounted config sb) (I : s.Inv config sb)
    (e : s.Edits sb behind AufsInode.SameFile s') : Later sb s s' := by
  induction e with
  | refl => exact .refl
  | getBlock e hget ih => exact ih.trans (getBlock_spec M (e.moves M I).1 hget).2.1.later
  | inode _ hi hsame ih =>
    exact ih.trans ⟨fun _ _ _ hp => (ptr_setInode hi hsame.1).mpr hp, .refl, .refl⟩
  | store _ _ ih => exact ⟨ih.ptr, ih.zmap, ih.imap⟩

theorem exec_newInode_later (M : Mounted config sb) (I : s.Inv config sb)
    (h : s.exec sb behind (.newInode task leftover dir mode) = some (out, s')) : Later sb s s' := by
  have hptr : ∀ ino i p, s.Ptr ino i p → s'.Ptr ino i p := by
    obtain ⟨-, -, -, hfiles⟩ := exec_newInode M I h
    rintro ino i p ⟨inode, hi, hp⟩
    exact ⟨inode, hfiles ino inode hi, hp⟩
  simp only [exec] at h
  rcases aufsNewInode_cases M.reads.inodeMapBlocks task s.imap (Aufs.newInode leftover) dir mode
    with ⟨-, heq⟩ | ⟨j, -, -, -, heq⟩
  · simp only [heq, Option.some.injEq, Prod.mk.injEq] at h
    obtain ⟨-, rfl⟩ := h
    exact .refl
  · have hset : sb.MapLe (s.imap 0)
        (Function.update s.imap 0 (minixSetBit j (s.imap 0)) 0) := by
      intro k _ hk
      rw [Function.update_self, minixSetBit, bit_setBit, hk, ite_self]
    by_cases h0 : j = 0
    · simp only [heq, if_pos h0, Option.some.injEq, Prod.mk.injEq] at h
      obtain ⟨-, rfl⟩ := h
      exact ⟨hptr, .refl, hset⟩
    · simp only [heq, if_neg h0, Option.some.injEq, Prod.mk.injEq] at h
      obtain ⟨-, rfl⟩ := h
      exact ⟨hptr, .refl, hset⟩

end FileSys

theorem PageCache.Reread.later {s s' : PageCache} (r : s.Reread sb s') :
    s.fs.Later sb s'.fs where
  ptr ino i p hp := (r.ptr ino i p).mpr hp
  zmap j hj hbit := by rw [r.zmap j hj, hbit]
  imap j hj hbit := by rw [r.imap j hj, hbit]

section
variable {image : Image} {menv : MkfsEnv} {s s' : PageCache} (M : Mounted config sb)
  (hf : image.Formatted config menv)
  (hplaced : 4096 ≤ config.zoneSize ∨ config.numZones ≤ config.blockSize / sizeofInode)
include M hf hplaced

/-- A file keeps its zones, and a number that is taken stays so, over writing back and mounting
too. -/
theorem DiskStep.later (hsb : sb = aufsFillSb image.superBlock) (O : s.OnDisk config sb image)
    (hs : DiskStep sb behind s op out s') : s.fs.Later sb s'.fs := by
  cases hs with
  | page hop hstep =>
    rcases hstep.edits M O.sound hop with ⟨task, leftover, dir, mode, rfl⟩ | e
    · cases hstep with
      | newInode hstep => exact FileSys.exec_newInode_later M O.sound.inv hstep
    · exact e.later M O.sound.inv
  | @writeInode _ ino inode hi _ =>
    have hptr : ({ inode with iDirty := false } : AufsInode).aiZonePtr = inode.aiZonePtr := rfl
    refine ⟨fun ino' i p hp => ?_, .refl, .refl⟩
    have hp' : (s.fs.setInode ino { inode with iDirty := false }).Ptr ino' i p :=
      (FileSys.ptr_setInode hi hptr).mpr hp
    exact hp'
  | writeZmap => exact ⟨fun _ _ _ h => h, .refl, .refl⟩
  | writeImap => exact ⟨fun _ _ _ h => h, .refl, .refl⟩
  | remount Y hblock hmount => exact (O.reread M hf hplaced Y hsb hblock hmount _).2.later

end

/-! ## What the device holds -/

/-- Block `no` of the device, as a map. -/
def Device.map (sb : Sb) (dev : Device) (no : Nat) : Mem := fun k =>
  dev.bytes (no * sb.sBlocksize + k)

/-- Which maps have been written back since the last inode was. -/
structure MapsBack where
  zmap : Bool
  imap : Bool

def settle (b : MapsBack) : DiskOp × DiskOut → MapsBack
  | (.page _, _) => b
  | (.writeInode _, _) => ⟨false, false⟩
  | (.writeZmap _, _) => ⟨true, b.imap⟩
  | (.writeImap _, _) => ⟨b.zmap, true⟩
  | (.remount _ _, _) => ⟨true, true⟩

/-- The slot of file `ino` on the device holds `old`, a state that the file had: the zones of `old`
are still its zones. They and the number are marked in the maps on the device if `b` says so. -/
structure PageCache.Slot (config : Configuration) (sb : Sb) (image : Image) (b : MapsBack)
    (s : PageCache) (ino : Nat) (old : AufsInode) : Prop where
  file : old.IsFile ino
  lt : ino < 8 * sb.sBlocksize
  free : bit image.inodeMap ino = false
  imap : bit (s.fs.imap 0) ino = true
  ptr : ∀ i, old.aiZonePtr i ≠ 0 → s.fs.Ptr ino i (old.aiZonePtr i)
  bytes : ∃ ids, ∀ k < 64,
    s.fs.dev.bytes (slotAddress sb ino + k) = v2MinixUpdateInode ids old (fun _ => 0) k
  zonesMarked : b.zmap = true → ∀ i, old.aiZonePtr i ≠ 0 → ∃ j, 2 ≤ j ∧ j < config.numZones ∧
    bit (s.fs.dev.map sb 1) j = true ∧ old.aiZonePtr i = sb.zoneStart config j
  numberMarked : b.imap = true → bit (s.fs.dev.map sb 2) ino = true

/-- The maps on the device mark what is never free, and nothing that memory has free. -/
structure PageCache.MapsBelow (config : Configuration) (sb : Sb) (image : Image) (s : PageCache) :
    Prop where
  zclear : ∀ j < 8 * sb.sBlocksize, bit (s.fs.dev.map sb 1) j = false →
    2 ≤ j ∧ j < config.numZones
  zmap : sb.MapLe (s.fs.dev.map sb 1) (s.fs.zmap 0)
  iclear : ∀ j < 8 * sb.sBlocksize, bit (s.fs.dev.map sb 2) j = false →
    bit image.inodeMap j = false
  imap : sb.MapLe (s.fs.dev.map sb 2) (s.fs.imap 0)

/-- What the device holds of the maps and of the inodes in `written`. -/
structure PageCache.Recorded (config : Configuration) (sb : Sb) (image : Image)
    (written : List Nat) (b : MapsBack) (s : PageCache) : Prop where
  maps : s.MapsBelow config sb image
  slots : ∀ ino ∈ written, ∃ old, s.Slot config sb image b ino old

/-- Block `no` of the device stays, or it becomes the map `m`, as `b` before and `b'` after say. -/
def Device.MapWrite (sb : Sb) (no : Nat) (m : Mem) (b b' : Bool) (dev dev' : Device) : Prop :=
  ((b' = true → b = true) ∧ ∀ k < sb.sBlocksize, dev'.map sb no k = dev.map sb no k) ∨
    ∀ k < sb.sBlocksize, dev'.map sb no k = m k

namespace Device.MapWrite

variable {dev dev' : Device} {b b' : Bool} {m : Mem}

theorem bit_cases (w : MapWrite sb no m b b' dev dev') (hj : j < 8 * sb.sBlocksize) :
    bit (dev'.map sb no) j = bit (dev.map sb no) j ∨ bit (dev'.map sb no) j = bit m j := by
  have hk : j / 8 < sb.sBlocksize := by omega
  rcases w with ⟨-, h⟩ | h
  · exact .inl (congrArg (BitVec.getLsbD · (j % 8)) (h _ hk))
  · exact .inr (congrArg (BitVec.getLsbD · (j % 8)) (h _ hk))

theorem clear {P : Nat → Prop} (w : MapWrite sb no m b b' dev dev')
    (h : ∀ j < 8 * sb.sBlocksize, bit (dev.map sb no) j = false → P j)
    (hm : ∀ j < 8 * sb.sBlocksize, bit m j = false → P j) :
    ∀ j < 8 * sb.sBlocksize, bit (dev'.map sb no) j = false → P j := by
  intro j hj hbit
  rcases w.bit_cases hj with heq | heq
  · exact h j hj (heq.symm.trans hbit)
  · exact hm j hj (heq.symm.trans hbit)

theorem le (w : MapWrite sb no m b b' dev dev') (h : sb.MapLe (dev.map sb no) m) :
    sb.MapLe (dev'.map sb no) m := by
  intro j hj hbit
  rcases w.bit_cases hj with heq | heq
  · exact h j hj (heq.symm.trans hbit)
  · exact heq.symm.trans hbit

/-- A bit of `m` is on the device whenever `b` and `b'` say so. -/
theorem marked (w : MapWrite sb no m b b' dev dev') (hj : j < 8 * sb.sBlocksize)
    (h : b = true → bit (dev.map sb no) j = true) (hm : bit m j = true) (hb : b' = true) :
    bit (dev'.map sb no) j = true := by
  have hk : j / 8 < sb.sBlocksize := by omega
  rcases w with ⟨hback, heq⟩ | heq
  · rw [bit, heq _ hk]
    exact h (hback hb)
  · rw [bit, heq _ hk]
    exact hm

end Device.MapWrite

/-- What a step does to the maps and slots on the device. -/
structure PageCache.Wrote (config : Configuration) (sb : Sb) (image : Image) (op : DiskOp)
    (b b' : MapsBack) (s s' : PageCache) : Prop where
  later : s.fs.Later sb s'.fs
  zmap : Device.MapWrite sb 1 (s.fs.zmap 0) b.zmap b'.zmap s.fs.dev s'.fs.dev
  imap : Device.MapWrite sb 2 (s.fs.imap 0) b.imap b'.imap s.fs.dev s'.fs.dev
  slots : ∀ ino, image.UsesInode config ino → op ≠ .writeInode ino → ∀ k < 64,
    s'.fs.dev.bytes (slotAddress sb ino + k) = s.fs.dev.bytes (slotAddress sb ino + k)

section
variable {image : Image} {menv : MkfsEnv} {s s' : PageCache} (M : Mounted config sb)
  (hf : image.Formatted config menv)
  (hplaced : 4096 ≤ config.zoneSize ∨ config.numZones ≤ config.blockSize / sizeofInode)
include M hf hplaced

/-- A step that leaves the front of the device alone. -/
theorem PageCache.Wrote.of_front (l : s.fs.Later sb s'.fs) (b : MapsBack) (op : DiskOp)
    (h : ∀ a < 1024 * sb.sBlocksize, s'.fs.dev.bytes a = s.fs.dev.bytes a) :
    Wrote config sb image op b b s s' where
  later := l
  zmap := .inl ⟨id, fun k hk => h _ (by omega)⟩
  imap := .inl ⟨id, fun k hk => h _ (by omega)⟩
  slots ino huse _ k hk := by
    have hend := (inTable M hf hplaced huse).slot_end
    exact h _ (by omega)

theorem DiskStep.wrote (hsb : sb = aufsFillSb image.superBlock) (O : s.OnDisk config sb image)
    (b : MapsBack) (hs : DiskStep sb behind s op out s') :
    PageCache.Wrote config sb image op b (settle b (op, out)) s s' := by
  have l := hs.later M hf hplaced hsb O
  have hz := M.reads.zoneMapBlocks
  have himap := M.reads.inodeMapBlocks
  cases hs with
  | page hop hstep =>
    refine .of_front M hf hplaced l b _ fun a ha => ?_
    rcases hstep.moves M O.sound hop with ⟨task, leftover, dir, mode, rfl⟩ | hmove
    · cases hstep with
      | newInode hstep =>
        obtain ⟨-, hdev, -⟩ := FileSys.exec_newInode M O.sound.inv hstep
        exact congrArg (Device.bytes · a) hdev
    · exact hmove.front a ha
  | @writeInode ids ino inode hi _ =>
    have haddr := (inTable M hf hplaced (O.usesInode M hf hi).1).address
    have hout : ∀ a, a < slotAddress sb ino ∨ slotAddress sb ino + 64 ≤ a →
        (s.fs.dev.writeInode sb ids inode).bytes a = s.fs.dev.bytes a := by
      intro a ha
      rw [O.writeInode_eq M hf hplaced ids hi]
      exact poke_outside (by rwa [peek_length])
    refine ⟨l, .inl ⟨fun h => absurd h Bool.false_ne_true, fun k hk => hout _ (.inl (by omega))⟩,
      .inl ⟨fun h => absurd h Bool.false_ne_true, fun k hk => hout _ (.inl (by omega))⟩,
      fun ino' huse' hne k hk => hout _ ?_⟩
    have hne' : ino' ≠ ino := fun heq => hne (by rw [heq])
    have haddr' := (inTable M hf hplaced huse').address
    omega
  | @writeZmap i hlt =>
    obtain rfl : i = 0 := by omega
    have hout : ∀ a, a < sb.sBlocksize ∨ 2 * sb.sBlocksize ≤ a →
        (s.fs.dev.writeMap sb (1 + 0) (s.fs.zmap 0)).bytes a = s.fs.dev.bytes a :=
      fun a ha => Device.writeMap_other (by omega)
    refine ⟨l, .inr fun k hk => Device.writeMap_same hk,
      .inl ⟨id, fun k hk => hout _ (.inr (by omega))⟩, fun ino huse _ k hk => hout _ (.inr ?_)⟩
    have haddr := (inTable M hf hplaced huse).address
    omega
  | @writeImap i hlt =>
    obtain rfl : i = 0 := by omega
    rw [hz] at l ⊢
    have hout : ∀ a, a < 2 * sb.sBlocksize ∨ 3 * sb.sBlocksize ≤ a →
        (s.fs.dev.writeMap sb (1 + 1 + 0) (s.fs.imap 0)).bytes a = s.fs.dev.bytes a :=
      fun a ha => Device.writeMap_other (by omega)
    refine ⟨l, .inl ⟨id, fun k hk => hout _ (.inl (by omega))⟩,
      .inr fun k hk => Device.writeMap_same hk, fun ino huse _ k hk => hout _ (.inr ?_)⟩
    have haddr := (inTable M hf hplaced huse).address
    omega
  | remount Y hblock hmount =>
    refine ⟨l, .inr fun k hk => ?_, .inr fun k hk => ?_, fun _ _ _ _ _ => rfl⟩
    · exact Y.zmap 0 (by omega) k hk
    · have h := Y.imap 0 (by omega) k hk
      rwa [hz] at h

/-! ## One step -/

omit M hf hplaced in
theorem PageCache.MapsBelow.step (O : s.OnDisk config sb image)
    (h : s.MapsBelow config sb image) (w : Wrote config sb image op b b' s s') :
    s'.MapsBelow config sb image where
  zclear := w.zmap.clear h.zclear O.sound.inv.clear
  zmap := (w.zmap.le h.zmap).trans w.later.zmap
  iclear := w.imap.clear h.iclear O.imap
  imap := (w.imap.le h.imap).trans w.later.imap

omit hf hplaced in
/-- A zone that a pointer names is marked in memory. -/
theorem FileSys.Inv.marked {fs : FileSys} (I : fs.Inv config sb) (h : fs.Ptr ino i p) :
    ∃ j, 2 ≤ j ∧ j < config.numZones ∧ j < 8 * sb.sBlocksize ∧ bit (fs.zmap 0) j = true ∧
      p = sb.zoneStart config j := by
  obtain ⟨j, hj2, hjn, hbit, hp⟩ := I.owned ino i p h
  have hle := M.accepted.numZones_le
  have hbs := M.reads.blocksize
  exact ⟨j, hj2, hjn, by omega, hbit, hp⟩

omit hf hplaced in
/-- The slot of a file that the step does not write. -/
theorem PageCache.Slot.step (O : s.OnDisk config sb image)
    (h : s.Slot config sb image b ino old) (w : Wrote config sb image op b b' s s')
    (hne : op ≠ .writeInode ino) : s'.Slot config sb image b' ino old where
  file := h.file
  lt := h.lt
  free := h.free
  imap := w.later.imap _ h.lt h.imap
  ptr i hi := w.later.ptr _ _ _ (h.ptr i hi)
  bytes := by
    have hlt := h.lt
    have hbs := M.reads.blocksize
    obtain ⟨ids, hbytes⟩ := h.bytes
    refine ⟨ids, fun k hk => ?_⟩
    rw [w.slots ino (.inr ⟨by omega, h.free⟩) hne k hk]
    exact hbytes k hk
  zonesMarked hb i hi := by
    obtain ⟨j, hj2, hjn, hj, hbit, hp⟩ := O.sound.inv.marked M (h.ptr i hi)
    refine ⟨j, hj2, hjn, w.zmap.marked hj (fun hb => ?_) hbit hb, hp⟩
    obtain ⟨j', -, -, hbit', hp'⟩ := h.zonesMarked hb i hi
    have hpos := M.accepted.blocksPerZone_pos
    have heq : 0 + sb.zoneStart config j = 0 + sb.zoneStart config j' := by omega
    rw [(Mounted.zoneStart_inj heq hpos hpos).1]
    exact hbit'
  numberMarked := w.imap.marked h.lt h.numberMarked h.imap

/-- The slot of a file that has just been written. -/
theorem PageCache.Slot.written (ids : OverflowIds) (O : s.OnDisk config sb image)
    (hi : s.fs.files ino = some inode)
    {b : MapsBack} (hz : b.zmap = false) (himap : b.imap = false) :
    Slot config sb image b { s with fs := { s.fs with
        dev := s.fs.dev.writeInode sb ids inode
        files := Function.update s.fs.files ino (some { inode with iDirty := false }) } } ino
      inode where
  file := (O.files ino inode hi).1
  lt := (O.files ino inode hi).2.1
  free := (O.files ino inode hi).2.2
  imap := O.sound.inv.named ino inode hi
  ptr i hne := by
    have hp : s.fs.Ptr ino i (inode.aiZonePtr i) := ⟨inode, hi, rfl, hne⟩
    have hptr : ({ inode with iDirty := false } : AufsInode).aiZonePtr = inode.aiZonePtr := rfl
    have hp' : (s.fs.setInode ino { inode with iDirty := false }).Ptr ino i _ :=
      (FileSys.ptr_setInode hi hptr).mpr hp
    exact hp'
  bytes := by
    refine ⟨ids, fun k hk => ?_⟩
    rw [O.writeInode_eq M hf hplaced ids hi]
    refine (poke_peek hk).trans ?_
    rw [Nat.zero_add]
    exact v2MinixUpdateInode_congr ids inode _ _ hk
  zonesMarked h := by
    rw [hz] at h
    cases h
  numberMarked h := by
    rw [himap] at h
    cases h

/-- What a mount recovers of `s`: the maps and the files in `written`, as the device has them. -/
structure PageCache.Recovered (sb : Sb) (leftover : Fin ZONE_PTR_IN_INODE_NUM → Nat)
    (written : List Nat) (s s' : PageCache) : Prop where
  dev : s'.fs.dev = s.fs.dev
  cache : ∀ ino iblock, s'.cache ino iblock = none
  zmap : ∀ j < 8 * sb.sBlocksize, bit (s'.fs.zmap 0) j = bit (s.fs.dev.map sb 1) j
  imap : ∀ j < 8 * sb.sBlocksize, bit (s'.fs.imap 0) j = bit (s.fs.dev.map sb 2) j
  loaded : ∀ ino ∈ written, s'.fs.files ino =
    (s.fs.dev.unbuffered.aufsInodeGet sb true leftover ino).1.toOption
  only : ∀ ino inode, s'.fs.files ino = some inode → ino ∈ written

/-- File `ino` has been written back: its blocks are clean, and its slot holds its inode. -/
structure PageCache.FileSynced (sb : Sb) (s : PageCache) (ino : Nat) : Prop where
  pages : ∀ iblock buf, s.cache ino iblock = some buf → buf.dirty = false
  slot : ∀ inode, s.fs.files ino = some inode → ∃ ids, ∀ k < 64,
    s.fs.dev.bytes (slotAddress sb ino + k) = v2MinixUpdateInode ids inode (fun _ => 0) k

section
variable {env : MountEnv} {fs : MountedFs} {leftover : Fin ZONE_PTR_IN_INODE_NUM → Nat}

namespace PageCache.Recovered

/-- Every file that has been written back is found. -/
theorem file (r : s.Recovered sb leftover written s') (O : s.OnDisk config sb image)
    (R : s.Recorded config sb image written b) (hmem : ino ∈ written) :
    ∃ old inode', s.Slot config sb image b ino old ∧ s'.fs.files ino = some inode' ∧
      inode'.IsFile ino ∧ old.SameData inode' := by
  obtain ⟨old, hslot⟩ := R.slots ino hmem
  have hbs := M.reads.blocksize
  have hlt := hslot.lt
  have hptr := O.sound.inv.zonePtr_lt M hslot.ptr
  obtain ⟨ids, hbytes⟩ := hslot.bytes
  obtain ⟨inode', hget, hfile, hsame⟩ :=
    reload_file (inTable M hf hplaced (.inr ⟨by omega, hslot.free⟩)) O.room hslot.file hptr
      hbytes leftover
  refine ⟨old, inode', hslot, ?_, hfile, hsame⟩
  rw [r.loaded ino hmem, hget]
  rfl

/-- A zone that a file has after the crash it had before. -/
theorem ptr (r : s.Recovered sb leftover written s') (O : s.OnDisk config sb image)
    (R : s.Recorded config sb image written b) (hp : s'.fs.Ptr ino i p) : s.fs.Ptr ino i p := by
  obtain ⟨inode, hi, rfl, hne⟩ := hp
  obtain ⟨old, inode', hslot, hi', -, hsame⟩ :=
    r.file M hf hplaced O R (r.only ino inode hi)
  cases hi'.symm.trans hi
  rw [hsame.zonePtr] at hne ⊢
  exact hslot.ptr i hne

/-- A file that has been written back is recovered with all that it holds. -/
theorem keeps (r : s.Recovered sb leftover written s') (O : s.OnDisk config sb image)
    (I' : s'.fs.Inv config sb) (hmem : k.1 ∈ written) (Y : s.FileSynced sb k.1)
    (hk : s.Keeps sb behind k v) : s'.Keeps sb behind k v := by
  obtain ⟨inode, hi, hlt⟩ := hk.sized
  have hptr := O.sound.inv.zonePtr_lt M fun _ h0 => ⟨inode, hi, rfl, h0⟩
  obtain ⟨ids, hbytes⟩ := Y.slot inode hi
  obtain ⟨inode', hget, -, hsame⟩ :=
    reload_file (inTable M hf hplaced (O.usesInode M hf hi).1) O.room (O.files _ inode hi).1 hptr
      hbytes leftover
  have hi' : s'.fs.files k.1 = some inode' := by
    rw [r.loaded k.1 hmem, hget]
    rfl
  refine ⟨⟨inode', hi', by rw [hsame.size]; exact hlt⟩, fun buf hbuf => ?_, .inl ?_⟩
  · cases (r.cache ..).symm.trans hbuf
  · obtain ⟨b, hb, hon, hv⟩ := diskByte_eq_some_iff.mp (hk.onDevice (Y.pages _))
    refine diskByte_eq_some_iff.mpr ⟨b, ?_, ?_, ?_⟩
    · obtain ⟨hidx, p, ⟨inode₁, hi₁, hp, hne⟩, heq⟩ :=
        (FileSys.block_eq_some_iff M O.sound.inv).mp hb
      cases hi.symm.trans hi₁
      exact (FileSys.block_eq_some_iff M I').mpr
        ⟨hidx, p, ⟨inode', hi', by rw [hsame.zonePtr]; exact hp, hne⟩, heq⟩
    · rw [r.dev]
      exact hon
    · rw [r.dev]
      exact hv

end PageCache.Recovered
end
end

/-! ## Crashes -/

end Aufs
