import Aufs.Mkfs.FormatLemmas
import Aufs.Mkfs.Main
import Aufs.Verify.BlocksCache
import Aufs.Verify.Mount

/-! A run of mkfs through its block cache leaves what the formatter asks for: the run takes its
blocks in ascending order and never fills the cache, so up to the destructor the cache is a list
of blocks, and `Sync` writes the list. -/

namespace Aufs
open Bytes Word

section
variable {env : MkfsEnv} {config : Configuration} {dev : Device}

namespace BlocksCache

variable {s : BlocksCache} {l : List (Nat × Mem)}

/-- The cache holds the blocks `l`, in ascending order, at the addresses from 0 on; `dev` is the
device as it was. -/
structure Ascending (dev : Device) (l : List (Nat × Mem)) (s : BlocksCache) : Prop where
  device : s.device = dev
  mCache : s.mCache = l.mapIdx fun i e => (e.1, i)
  blocks : ∀ i e, l[i]? = some e → s.blocks i = { mNumber := e.1, mData := e.2 }
  next : s.next = l.length

namespace Ascending

theorem make (dev : Device) : (make dev).Ascending dev [] := ⟨rfl, rfl, nofun, rfl⟩

theorem data_eq (h : s.Ascending dev l) (hi : l[i]? = some (no, m)) : s.data i = m := by
  rw [data, h.blocks i _ hi]

theorem release (h : s.Ascending dev l) (addr : Nat) : (s.release addr).Ascending dev l :=
  ⟨h.device, h.mCache, h.blocks, h.next⟩

theorem setData (h : s.Ascending dev l) (hi : l[i]? = some (no, m)) (m' : Mem) :
    (s.setData i m').Ascending dev (l.set i (no, m')) := by
  refine ⟨h.device, ?_, fun j e he => ?_, ?_⟩
  · change s.mCache = _
    rw [h.mCache]
    apply List.ext_getElem (by simp)
    intro j hj hj'
    simp only [List.getElem_mapIdx, List.getElem_set]
    split
    · next heq =>
      subst heq
      obtain ⟨_, hget⟩ := List.getElem?_eq_some_iff.mp hi
      rw [hget]
    · rfl
  · simp only [BlocksCache.setData]
    by_cases heq : j = i
    · subst heq
      have hlt : j < l.length := (List.getElem?_eq_some_iff.mp hi).1
      rw [List.getElem?_set_self hlt] at he
      cases he
      rw [Function.update_self, h.blocks j _ hi]
    · rw [List.getElem?_set_ne (Ne.symm heq)] at he
      rw [Function.update_of_ne heq]
      exact h.blocks j e he
  · rw [List.length_set]
    exact h.next

theorem mapFind_eq_none (h : s.Ascending dev l) (hlt : ∀ e ∈ l, e.1 < no) :
    mapFind s.mCache no = none := by
  rw [mapFind, h.mCache, Option.map_eq_none_iff, List.find?_eq_none]
  intro e he
  obtain ⟨i, hi, rfl⟩ := List.mem_mapIdx.mp he
  have := hlt _ (List.getElem_mem hi)
  simp only [beq_iff_eq]
  omega

theorem mapInsert_last {cache : List (Nat × Nat)} (h : ∀ e ∈ cache, e.1 < no) :
    mapInsert no addr cache = cache ++ [(no, addr)] := by
  induction cache with
  | nil => rfl
  | cons e rest ih =>
    have he := h e List.mem_cons_self
    rw [mapInsert, if_neg (by omega), ih fun e' he' => h e' (List.mem_cons_of_mem _ he')]
    rfl

/-- The next block in ascending order, while the cache is small. -/
theorem getBlock (h : s.Ascending dev l) (env : MkfsEnv) (config : Configuration) (no : Nat)
    (hlt : ∀ e ∈ l, e.1 < no) (hsmall : config.blockSize * l.length ≤ thresholdSize) :
    ∃ s', s.getBlock env config no = (l.length, s') ∧
      s'.Ascending dev (l ++ [(no, readBlock env config dev no)]) := by
  have hlen : s.mCache.length = l.length := by rw [h.mCache, List.length_mapIdx]
  have hget : s.getBlock env config no = (l.length, s.fetch env config no) := by
    rw [BlocksCache.getBlock, h.mapFind_eq_none hlt]
    simp only
    rw [if_neg (by rw [hlen]; omega), ← h.next]
    rfl
  refine ⟨_, hget, h.device, ?_, fun i e he => ?_, ?_⟩
  · have hcache : ∀ e ∈ s.mCache, e.1 < no := by
      intro e he
      rw [h.mCache] at he
      obtain ⟨i, hi, rfl⟩ := List.mem_mapIdx.mp he
      exact hlt _ (List.getElem_mem hi)
    change mapInsert no s.next s.mCache = _
    rw [mapInsert_last hcache, h.mCache, h.next, List.mapIdx_append]
    simp
  · change Function.update s.blocks s.next _ i = _
    rw [h.next]
    by_cases hi : i = l.length
    · subst hi
      rw [List.getElem?_append_right (Nat.le_refl _), Nat.sub_self] at he
      cases he
      rw [Function.update_self, h.device]
    · rw [Function.update_of_ne hi]
      have hlt' : i < (l ++ [(no, readBlock env config dev no)]).length :=
        (List.getElem?_eq_some_iff.mp he).1
      rw [List.length_append, List.length_singleton] at hlt'
      rw [List.getElem?_append_left (by omega)] at he
      exact h.blocks i e he
  · change s.next + 1 = _
    rw [h.next, List.length_append, List.length_singleton]

theorem syncLoop_device (blocks : Nat → Block) (handles : List Nat) (cache : List (Nat × Nat))
    (dev : Device) :
    (syncLoop config blocks handles cache dev).1 =
      cache.foldl (fun dev e => writeBlock config dev (blocks e.2).mNumber (blocks e.2).mData)
        dev := by
  induction cache generalizing dev with
  | nil => rfl
  | cons e rest ih =>
    rw [syncLoop, List.foldl_cons, ← ih]

/-- The destructor writes the list. -/
theorem destroy (h : s.Ascending dev l) :
    s.destroy config = l.foldl (fun dev e => writeBlock config dev e.1 e.2) dev := by
  have hblocks : s.mCache.map (fun e => ((s.blocks e.2).mNumber, (s.blocks e.2).mData)) = l := by
    rw [h.mCache]
    apply List.ext_getElem (by simp)
    intro i hi hi'
    rw [List.getElem_map, List.getElem_mapIdx, h.blocks i _ (List.getElem?_eq_getElem hi')]
  change (syncLoop config s.blocks s.handles s.mCache s.device).1 = _
  rw [syncLoop_device, h.device]
  conv_rhs => rw [← hblocks]
  rw [List.foldl_map]

end Ascending
end BlocksCache

/-! ## The formatter -/

/-- What `mkfs` puts into the blocks of an image besides the maps. -/
theorem mkfs_blocks (h : mkfs env fuel config dev = some image) :
    image.superBlock = SuperBlock.setRootInode
        (SuperBlock.fillSuper config (readBlock env config dev 0)) 1 ∧
      image.inodeBlock = rootInodeSlot env
        (readBlock env config dev (Inode.fillInodeBlock config 1))
        (Inode.fillInodeOffset config 1) (mkfsZoneBlock config 1)
        (u32 (2 * AUFS_DIR_SIZE + config.zoneSize - 1) / config.zoneSize) ∧
      image.rootContent = rootDirContent (readBlock env config dev (mkfsZoneBlock config 1)) := by
  simp only [mkfs, Option.bind_eq_bind, Option.bind_eq_some_iff] at h
  obtain ⟨_, -, _, -, _, -, _, -, _, -, _, -, _, -, himage⟩ := h
  cases himage
  exact ⟨rfl, rfl, rfl⟩

namespace Formatter

variable {f : Formatter}

/-- The formatter at work: the blocks `l`, the first three those of its super block. -/
structure Works (dev : Device) (l : List (Nat × Mem)) (f : Formatter) : Prop where
  cache : f.mCache.Ascending dev l
  superBlock : f.mSuperBlock = 0
  zoneMap : f.mZoneMap = 1
  inodeMap : f.mInodeMap = 2

theorem make_works (H : config.Accepted)
    (hzone : SuperBlock.fillZoneMap config (readBlock env config dev 1) = some zoneMap)
    (hinode : SuperBlock.fillInodeMap config
      (readBlock env config dev (1 + config.numZoneMapBlocks)) = some inodeMap) :
    ∃ f, make env config dev = some f ∧
      f.Works dev [(0, SuperBlock.fillSuper config (readBlock env config dev 0)), (1, zoneMap),
        (1 + config.numZoneMapBlocks, inodeMap)] := by
  have hbs : config.blockSize ≤ 4096 := blockSizeOf_le
  have hmap := H.zoneMapBlocks
  obtain ⟨c₀, h₀, A₀⟩ := (BlocksCache.Ascending.make dev).getBlock env config 0 nofun
    (by simp)
  obtain ⟨c₁, h₁, A₁⟩ := A₀.getBlock env config 1 (by simp)
    (by simp [BlocksCache.thresholdSize]; omega)
  obtain ⟨c₂, h₂, A₂⟩ := A₁.getBlock env config (1 + config.numZoneMapBlocks)
    (by simp [hmap]) (by simp [BlocksCache.thresholdSize]; omega)
  simp only [List.nil_append, List.cons_append, List.length_nil, List.length_cons] at h₀ h₁ h₂ A₂
  have A₃ := A₂.setData (i := 1) rfl zoneMap
  have A₄ := A₃.setData (i := 2) rfl inodeMap
  have A₅ := A₄.setData (i := 0) rfl (SuperBlock.fillSuper config (readBlock env config dev 0))
  unfold make
  simp only [h₀, h₁, h₂, Nat.zero_add, Nat.reduceAdd, A₂.data_eq (i := 1) rfl, hzone,
    A₃.data_eq (i := 2) rfl, hinode, A₄.data_eq (i := 0) rfl, Option.bind_eq_bind,
    Option.bind_some, Option.pure_def]
  exact ⟨_, rfl, A₅, rfl, rfl, rfl⟩

theorem mkRootDir_works (env : MkfsEnv) (H : config.Accepted) {numBlocks : Nat}
    (hnum : numBlocks = u32 (2 * AUFS_DIR_SIZE + config.zoneSize - 1) / config.zoneSize)
    (W : f.Works dev [(0, sb), (1, zoneMap), (1 + config.numZoneMapBlocks, inodeMap)])
    (hinode : SuperBlock.allocateInode config inodeMap = .ok (1, inodeMap'))
    (hzone : SuperBlock.allocateZones fuel config zoneMap numBlocks = some (.ok (1, zoneMap'))) :
    ∃ inode f', mkRootDir env config fuel f = some (inode, f') ∧ inode.mInode = 1 ∧
      f'.Works dev [(0, sb), (1, zoneMap'), (1 + config.numZoneMapBlocks, inodeMap'),
        (Inode.fillInodeBlock config 1,
          rootInodeSlot env (readBlock env config dev (Inode.fillInodeBlock config 1))
            (Inode.fillInodeOffset config 1) (mkfsZoneBlock config 1) numBlocks),
        (mkfsZoneBlock config 1,
          rootDirContent (readBlock env config dev (mkfsZoneBlock config 1)))] := by
  have hbs : config.blockSize ≤ 4096 := blockSizeOf_le
  have hmap := H.zoneMapBlocks
  have htable := fillInodeBlock_one H
  have hroot := H.rootBlock_eq
  have A₀ := W.cache
  have A₁ := A₀.setData (i := 2) rfl inodeMap'
  obtain ⟨c₂, h₂, A₂⟩ := A₁.getBlock env config (Inode.fillInodeBlock config 1)
    (by simp [hmap, htable]) (by simp [BlocksCache.thresholdSize]; omega)
  simp only [List.set_cons_succ, List.set_cons_zero, List.cons_append, List.nil_append,
    List.length_cons, List.length_nil] at h₂ A₂
  have A₃ := A₂.setData (i := 3) rfl
    (Inode.setCreateTime (readBlock env config dev (Inode.fillInodeBlock config 1))
      (Inode.fillInodeOffset config 1) env.time)
  have A₄ := A₃.setData (i := 1) rfl zoneMap'
  have A₅ := A₄.setData (i := 3) rfl
    (rootInodeSlot env (readBlock env config dev (Inode.fillInodeBlock config 1))
      (Inode.fillInodeOffset config 1) (mkfsZoneBlock config 1) numBlocks)
  obtain ⟨c₆, h₆, A₆⟩ := A₅.getBlock env config (mkfsZoneBlock config 1)
    (by simp [hmap, htable, hroot]) (by simp [BlocksCache.thresholdSize]; omega)
  simp only [List.set_cons_succ, List.set_cons_zero, List.cons_append, List.nil_append,
    List.length_cons, List.length_nil, rootInodeSlot] at h₆ A₆
  have A₇ := A₆.setData (i := 4) rfl
    (rootDirContent (readBlock env config dev (mkfsZoneBlock config 1)))
  unfold mkRootDir InodeObject.make
  simp only [W.inodeMap, W.zoneMap, A₀.data_eq (i := 2) rfl, hinode, h₂, Nat.zero_add,
    Nat.reduceAdd, A₂.data_eq (i := 3) rfl, A₃.data_eq (i := 1) rfl, ← hnum, hzone,
    A₄.data_eq (i := 3) rfl, h₆, A₆.data_eq (i := 4) rfl, Option.bind_eq_bind, Option.bind_some,
    Option.pure_def, Except.toOption, guard, if_true]
  exact ⟨_, _, rfl, rfl, A₇.release _, W.superBlock, rfl, rfl⟩

/-- The run through the block cache writes the image. -/
theorem run_eq (H : config.Accepted) (h : mkfs env fuel config dev = some image) :
    run env config fuel dev = some (image.device config dev) := by
  obtain ⟨zoneMap, inodeMap, hzone, hinode, hallocInode, hallocZones⟩ := mkfs_allocates h
  obtain ⟨hsuper, htable, hroot⟩ := mkfs_blocks h
  obtain ⟨f, hmake, W⟩ := make_works H hzone hinode
  obtain ⟨inode, f', hroot', hno, W'⟩ := mkRootDir_works env H rfl W hallocInode hallocZones
  have A := W'.cache.setData (i := 0) rfl
    (SuperBlock.setRootInode (SuperBlock.fillSuper config (readBlock env config dev 0)) 1)
  unfold run
  simp only [hmake, hroot', Option.bind_eq_bind, Option.bind_some, Option.pure_def,
    setRootInode, hno, W'.superBlock, W'.cache.data_eq (i := 0) rfl]
  rw [destroy, ((((A.release _).release _).release _).release _).destroy, Image.device, hsuper,
    htable, hroot]
  rfl

end Formatter
end

/-! ## `main` -/

/-- A run of mkfs that takes its arguments exits with status 0 and leaves the image of their
configuration on the device they name, as far as it lies on the device and whatever was there
before; a run that does not changes no file, and exits with status 1 if it exits at all. -/
theorem mkfs_main (env : MkfsEnv) (fuel : Nat) (disks : Disks) (argv : List String) :
    (∀ config, parseArgs disks.files.deviceSize argv = .ok config →
      ∃ disks', mkfsMain env (fuel + 1) disks argv = some (0, disks') ∧
        (∀ name, name ≠ config.device → disks' name = disks name) ∧
        (disks config.device = none → disks' config.device = none) ∧
        ∀ dev, disks config.device = some dev →
          ∃ image, mkfs env (fuel + 1) config dev = some image ∧ image.Formatted config env ∧
            disks' config.device = some (image.device config dev)) ∧
    ((∀ config, parseArgs disks.files.deviceSize argv ≠ .ok config) →
      ∀ status disks', mkfsMain env (fuel + 1) disks argv = some (status, disks') →
        status = 1 ∧ disks' = disks) := by
  constructor
  · intro config hargs
    have H := accepted_of_parseArgs hargs
    obtain ⟨image, himage, hf⟩ := mkfs_spec H env fuel
      ((disks config.device).getD { size := 0, bytes := fun _ => 0 })
    refine ⟨Function.update disks config.device ((disks config.device).map fun _ =>
      image.device config ((disks config.device).getD { size := 0, bytes := fun _ => 0 })), ?_, ?_,
      ?_, ?_⟩
    · simp only [mkfsMain, hargs, Formatter.run_eq H himage, Option.bind_eq_bind, Option.bind_some,
        Option.pure_def]
    · intro name hname
      exact Function.update_of_ne hname ..
    · intro hnone
      rw [Function.update_self, hnone]
      rfl
    · intro dev hdev
      rw [hdev] at himage ⊢
      exact ⟨image, himage, hf, Function.update_self ..⟩
  · intro hargs status disks' hmain
    unfold mkfsMain at hmain
    cases hparse : parseArgs disks.files.deviceSize argv with
    | ok config => exact absurd hparse (hargs config)
    | error e =>
      rw [hparse] at hmain
      cases e with
      | exception what =>
        cases hmain
        exact ⟨rfl, rfl⟩
      | divisionByZero => cases hmain

end Aufs
