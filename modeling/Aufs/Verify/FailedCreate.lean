import Aufs.Verify.NameSpace

/-! Creations that fail. `minix_mknod`, `minix_create` and `minix_mkdir` undo what they did to the
link count of the parent, but nothing gives back an inode number or a zone, and an entry whose page
could not be written at once stays in the directory. Reading the parent takes no zone as long as it
has no hole, and no run from a fresh mount leaves one (`NameiStep.run_noHoles`). -/

namespace Aufs
open Bytes Word

/-! ## Directories without holes -/

/-- Bringing in a page of the inode, as it is or with another link count, takes no zone. -/
def AufsInode.ReadsTakeNoZone (sb : Sb) (inode : AufsInode) : Prop :=
  ∀ inode' : AufsInode, inode'.iSize = inode.iSize → inode'.aiZonePtr = inode.aiZonePtr →
    ∀ behind zmap n, aufsReadpageZones sb behind zmap inode' n = (inode', zmap, [])

section
variable {sb : Sb} {inode inode' : AufsInode}

namespace AufsInode.NoHole

theorem congr (h : inode.NoHole sb) (hsize : inode'.iSize = inode.iSize)
    (hptr : inode'.aiZonePtr = inode.aiZonePtr) : inode'.NoHole sb := by
  unfold NoHole
  rw [hsize, hptr]
  exact h

/-- No zone is taken for a block below `i_size`. -/
theorem getBlock (h : inode.NoHole sb) (hlt : iblock * sb.sBlocksize < inode.iSize)
    (zmap : MapBlocks) (behind : Nat → Nat) (create : Bool) :
    (aufsGetBlock sb zmap inode behind iblock sb.sBlocksize create).inode = inode ∧
      (aufsGetBlock sb zmap inode behind iblock sb.sBlocksize create).zmap = zmap ∧
      (aufsGetBlock sb zmap inode behind iblock sb.sBlocksize create).newZone = none := by
  simp only [aufsGetBlock]
  split
  · exact ⟨rfl, rfl, rfl⟩
  · split
    · exact ⟨rfl, rfl, rfl⟩
    · split
      · next h0 =>
        split
        · next hidx =>
          rw [AufsInode.zonePtr, dif_pos hidx] at h0
          exact absurd h0 (h iblock hlt hidx)
        · exact ⟨rfl, rfl, rfl⟩
      · exact ⟨rfl, rfl, rfl⟩

theorem readpageZones (h : inode.NoHole sb) (behind : Nat → Nat) (k iblock : Nat)
    (zmap : MapBlocks) : readpageZones sb behind k iblock inode zmap = (inode, zmap, []) := by
  induction k generalizing iblock with
  | zero => rfl
  | succ k ih =>
    rw [Aufs.readpageZones]
    split
    · next hlt =>
      obtain ⟨hinode, hzmap, hzone⟩ := h.getBlock hlt zmap behind false
      simp only [hinode, hzmap, hzone, ih]
      rfl
    · exact ih (iblock + 1)

theorem reads (h : inode.NoHole sb) : inode.ReadsTakeNoZone sb :=
  fun _ hsize hptr _ _ _ => (h.congr hsize hptr).readpageZones ..

/-- Growing by the block at the end, once this has its zone. -/
theorem grow (h : inode.NoHole sb)
    (hkeep : ∀ i, inode.aiZonePtr i ≠ 0 → inode'.aiZonePtr i ≠ 0)
    (hlast : ∀ iblock, inode.iSize ≤ iblock * sb.sBlocksize →
      iblock * sb.sBlocksize < inode'.iSize → iblock = pos / sb.sBlocksize)
    (hnew : ∀ hidx : u32 (pos / sb.sBlocksize / (u32 sb.sbi.asbZoneSize / sb.sBlocksize)) <
      ZONE_PTR_IN_INODE_NUM, inode'.aiZonePtr ⟨_, hidx⟩ ≠ 0) : inode'.NoHole sb := by
  intro iblock hlt hidx
  by_cases hold : iblock * sb.sBlocksize < inode.iSize
  · exact hkeep _ (h iblock hold hidx)
  · obtain rfl := hlast iblock (Nat.not_lt.mp hold) hlt
    exact hnew hidx

end AufsInode.NoHole

/-- The zone that `aufs_new_zone` has found is not 0 as a pointer either. -/
theorem aufsNewZone_ptr {zmap : MapBlocks} (h0 : (aufsNewZone sb zmap).1 ≠ 0) :
    u64OfInt (aufsNewZone sb zmap).1 ≠ 0 := by
  rcases aufsNewZone_takes sb zmap with ⟨-, heq⟩ | ⟨k, zmap', zone, -, heq, hge, hlt⟩
  · rw [heq] at h0
    exact absurd rfl h0
  · rw [heq] at h0 ⊢
    unfold u64OfInt
    simp only at h0
    omega

/-- Where a zone was found, no pointer is lost and the block asked for has its zone. -/
theorem aufsGetBlock_ptr {zmap : MapBlocks} {behind : Nat → Nat}
    (h0 : (aufsGetBlock sb zmap inode behind iblock bSize create).newZone ≠ some 0) :
    (∀ i, inode.aiZonePtr i ≠ 0 →
      (aufsGetBlock sb zmap inode behind iblock bSize create).inode.aiZonePtr i ≠ 0) ∧
    ∀ b, (aufsGetBlock sb zmap inode behind iblock bSize create).ret = .ok b →
      ∀ hidx : u32 (iblock / (u32 sb.sbi.asbZoneSize / bSize)) < ZONE_PTR_IN_INODE_NUM,
        (aufsGetBlock sb zmap inode behind iblock bSize create).inode.aiZonePtr ⟨_, hidx⟩ ≠ 0 := by
  simp only [aufsGetBlock] at h0 ⊢
  split
  · exact ⟨fun _ h => h, fun _ h => by cases h⟩
  · next hge =>
    simp only [if_neg hge] at h0
    split
    · exact ⟨fun _ h => h, fun _ h => by cases h⟩
    · next hdvd =>
      simp only [if_neg hdvd] at h0
      split
      · next hptr =>
        simp only [if_pos hptr] at h0
        split
        · next hidx =>
          simp only [dif_pos hidx] at h0
          have hzone := aufsNewZone_ptr fun h => h0 (congrArg some h)
          refine ⟨fun i hi => ?_, fun _ _ _ => ?_⟩
          · change (inode.setZonePtr ⟨_, hidx⟩ _).aiZonePtr i ≠ 0
            by_cases heq : i = ⟨_, hidx⟩
            · rw [heq, AufsInode.setZonePtr_self]
              exact hzone
            · rw [AufsInode.setZonePtr_of_ne _ _ _ heq]
              exact hi
          · change (inode.setZonePtr ⟨_, hidx⟩ _).aiZonePtr ⟨_, hidx⟩ ≠ 0
            rw [AufsInode.setZonePtr_self]
            exact hzone
        · next hidx => exact ⟨fun _ h => h, fun _ _ h => absurd h hidx⟩
      · next hptr =>
        refine ⟨fun _ h => h, fun _ _ hidx => ?_⟩
        rwa [AufsInode.zonePtr, dif_pos hidx] at hptr

theorem minixPrepareChunk_ptr {zmap : MapBlocks} {env : DirEnv}
    (h0 : (minixPrepareChunk sb env zmap inode pos).newZone ≠ some 0) :
    (∀ i, inode.aiZonePtr i ≠ 0 → (minixPrepareChunk sb env zmap inode pos).inode.aiZonePtr i ≠ 0) ∧
    ∀ b, (minixPrepareChunk sb env zmap inode pos).ret = .ok b →
      ∀ hidx : u32 (pos / sb.sBlocksize / (u32 sb.sbi.asbZoneSize / sb.sBlocksize)) <
        ZONE_PTR_IN_INODE_NUM,
        (minixPrepareChunk sb env zmap inode pos).inode.aiZonePtr ⟨_, hidx⟩ ≠ 0 := by
  rw [minixPrepareChunk_newZone] at h0
  obtain ⟨hkeep, hnew⟩ := aufsGetBlock_ptr h0
  simp only [minixPrepareChunk]
  split
  · exact ⟨hkeep, fun _ h => by cases h⟩
  · exact ⟨hkeep, hnew⟩

end

section
variable {order : ByteOrder} {config : Configuration} {sb : Sb} (R : sb.Reads config)
  (H : config.Accepted)
include R H

/-- `minix_add_link` maps the block that it grows the directory by. -/
theorem minixAddLink_noHole {dir : AufsInode} {content : Mem} {env : DirEnv} {zmap : MapBlocks}
    (wf : WellFormed order dir content) (hname : ValidName name) (h : dir.NoHole sb)
    (h0 : (minixAddLink order sb env zmap dir content name ino).newZone ≠ some 0) :
    (minixAddLink order sb env zmap dir content name ino).dir.NoHole sb := by
  unfold minixAddLink at h0 ⊢
  rcases minixAddLinkLoop_spec env wf hname (Nat.zero_add _) (Nat.zero_le _) with
    ⟨-, heq⟩ | ⟨-, heq⟩ | ⟨m, e, -, heq⟩
  · rw [heq]
    exact h
  · simp only [heq] at h0 ⊢
    obtain ⟨ptr, hinode⟩ := minixPrepareChunk_inode sb env zmap dir dir.iSize
    cases hmap : (minixPrepareChunk sb env zmap dir dir.iSize).ret with
    | error e =>
      simp only [hmap] at h0 ⊢
      obtain ⟨hkeep, -⟩ := minixPrepareChunk_ptr h0
      intro iblock hlt hidx
      rw [hinode] at hlt
      exact hkeep _ (h iblock hlt hidx)
    | ok b =>
      simp only [hmap] at h0 ⊢
      obtain ⟨hkeep, hnew⟩ := minixPrepareChunk_ptr h0
      have hgt : dir.iSize + AUFS_DIR_SIZE > dir.iSize := Nat.lt_add_of_pos_right (by decide)
      rw [hinode] at hkeep hnew ⊢
      simp only [dirCommitChunk, if_pos hgt]
      refine h.grow (fun i hi => hkeep i hi) (fun iblock hge hlt => ?_) (hnew b hmap)
      -- no block begins inside an entry
      have haligned : dir.iSize % 64 = 0 := wf.aligned
      replace hlt : iblock * sb.sBlocksize < dir.iSize + 64 := hlt
      rw [R.blocksize] at hge hlt ⊢
      rcases H.blockSize_cases with hbs | hbs | hbs | hbs
      all_goals
        rw [hbs] at hge hlt ⊢
        omega
  · rw [heq]
    exact h

/-- `.` and `..` fit into the first block. -/
theorem Sb.Reads.eq_zero_of_two_entries {iblock : Nat}
    (hlt : iblock * sb.sBlocksize < 2 * AUFS_DIR_SIZE) : iblock = 0 := by
  replace hlt : iblock * sb.sBlocksize < 128 := hlt
  rw [R.blocksize] at hlt
  rcases H.blockSize_cases with hbs | hbs | hbs | hbs
  all_goals
    rw [hbs] at hlt
    omega

/-- `minix_make_empty` maps the first block. -/
theorem minixMakeEmpty_noHole {inode : AufsInode} {content : Mem} {env : DirEnv} {zmap : MapBlocks}
    (hsize : inode.iSize = 0)
    (h0 : (minixMakeEmpty order sb env zmap inode content parent).newZone ≠ some 0)
    (hret : (minixMakeEmpty order sb env zmap inode content parent).ret = some (.ok ())) :
    (minixMakeEmpty order sb env zmap inode content parent).dir.NoHole sb := by
  have hempty : inode.NoHole sb := by
    intro iblock hlt
    rw [hsize] at hlt
    exact absurd hlt (Nat.not_lt_zero _)
  obtain ⟨hgrab, -⟩ := minixMakeEmpty_ok hret
  rw [minixMakeEmpty_newZone hgrab] at h0
  obtain ⟨hkeep, hnew⟩ := minixPrepareChunk_ptr h0
  obtain ⟨ptr, hinode⟩ := minixPrepareChunk_inode sb env zmap inode 0
  simp only [minixMakeEmpty, hgrab] at hret ⊢
  cases hmap : (minixPrepareChunk sb env zmap inode 0).ret with
  | error e =>
    simp only [hmap] at hret
    cases hret
  | ok b =>
    have hgt : 0 + 2 * AUFS_DIR_SIZE > inode.iSize := by
      rw [hsize]
      decide
    rw [hinode] at hkeep hnew
    simp only [hinode, dirCommitChunk, if_pos hgt]
    refine hempty.grow (fun i hi => hkeep i hi) (fun iblock _ hlt => ?_) (hnew b hmap)
    rw [Nat.zero_div]
    exact R.eq_zero_of_two_entries H hlt

theorem minixMknod_noHole {dir : AufsInode} {content : Mem} {env : NameiEnv} {zmap imap : MapBlocks}
    {pages : Mem} (wf : WellFormed order dir content) (hname : ValidName name) (h : dir.NoHole sb)
    (h0 : 0 ∉ (minixMknod order sb env zmap imap dir content name mode rdev pages).newZones) :
    (minixMknod order sb env zmap imap dir content name mode rdev pages).dir.NoHole sb := by
  unfold minixMknod at h0 ⊢
  by_cases hdev : oldValidDev rdev = false
  · rw [if_pos hdev]
    exact h
  · rw [if_neg hdev] at h0 ⊢
    cases hnew : aufsNewInode env.task sb imap env.new dir mode with
    | mk ret imap' =>
      cases ret with
      | error e => exact h
      | ok inode =>
        simp only [hnew] at h0 ⊢
        cases hset : minixSetInode inode with
        | error e => exact h
        | ok u =>
          simp only [hset, addNondir, Option.mem_toList] at h0 ⊢
          exact minixAddLink_noHole R H wf hname h h0

theorem minixMkdir_noHole {dir : AufsInode} {content : Mem} {env : NameiEnv} {zmap imap : MapBlocks}
    {pages : Mem} (wf : WellFormed order dir content) (hname : ValidName name) (h : dir.NoHole sb)
    (hfresh : ∀ new ∈ env.new, ∃ leftover, new = newInode leftover)
    (h0 : 0 ∉ (minixMkdir order sb env zmap imap dir content name mode pages).newZones) :
    (minixMkdir order sb env zmap imap dir content name mode pages).dir.NoHole sb ∧
    ∀ made, (minixMkdir order sb env zmap imap dir content name mode pages).inode = some made →
      made.1.NoHole sb := by
  have hinc : (inodeIncLinkCount dir).NoHole sb :=
    h.congr (inodeIncLinkCount_iSize _) (inodeIncLinkCount_aiZonePtr _)
  have hdec : ∀ {dir' : AufsInode}, dir'.NoHole sb → (inodeDecLinkCount dir').NoHole sb :=
    fun h' => h'.congr (inodeDecLinkCount_iSize _) (inodeDecLinkCount_aiZonePtr _)
  simp only [minixMkdir] at h0 ⊢
  cases hnew : aufsNewInode env.task sb imap env.new (inodeIncLinkCount dir) (S_IFDIR ||| mode) with
  | mk ret imap' =>
    cases ret with
    | error e => exact ⟨hdec hinc, fun _ h => by cases h⟩
    | ok inode =>
      simp only [hnew] at h0 ⊢
      obtain ⟨hsize, -⟩ := newInode_fresh R H hfresh hnew
      rw [← inodeIncLinkCount_iSize] at hsize
      split at h0
      case h_1 hmade =>
        simp only [List.mem_append, Option.mem_toList, not_or] at h0
        have hwf : WellFormed order (inodeIncLinkCount dir) content := by
          refine ⟨?_, ?_⟩
          · rw [inodeIncLinkCount_iSize]
            exact wf.aligned
          · rw [inodeIncLinkCount_iSize]
            exact wf.used
        have hlink := minixAddLink_noHole R H hwf hname hinc h0.2
        refine ⟨?_, fun made hmem => ?_⟩
        · simp only
          split
          · exact hlink
          · exact hdec hlink
        · simp only at hmem
          split at hmem
          · cases hmem
            exact minixMakeEmpty_noHole R H hsize h0.1 hmade
          · cases hmem
      case h_2 => exact ⟨hdec hinc, fun _ h => by cases h⟩

/-- A call leaves no hole in the directory, nor in one that it makes. -/
theorem NameSpace.call_noHole {s : NameSpace} {dir : DirState} {op : NameiOp}
    (wf : WellFormed order dir.inode dir.content) (h : dir.inode.NoHole sb)
    (hname : ∀ name ∈ op.kind.name, ValidName name)
    (hfresh : ∀ new ∈ op.env.new, ∃ leftover, new = newInode leftover)
    (h0 : 0 ∉ (s.call order sb dir op).newZones) :
    (s.call order sb dir op).dir.NoHole sb ∧
      ∀ made, madeDir op (s.call order sb dir op) = some made → made.inode.NoHole sb := by
  obtain ⟨kind, d, env, pages⟩ := op
  cases kind with
  | create name mode | mknod name mode rdev =>
    exact ⟨minixMknod_noHole R H wf (hname name rfl) h h0, fun _ hmade => by cases hmade⟩
  | mkdir name mode =>
    obtain ⟨hdir, hinode⟩ := minixMkdir_noHole R H wf (hname name rfl) h hfresh h0
    refine ⟨hdir, fun made hmade => ?_⟩
    simp only [madeDir] at hmade
    split at hmade
    · next hsome =>
      cases hmade
      exact hinode _ hsome
    · cases hmade
  | tmpfile mode =>
    refine ⟨?_, fun _ hmade => by cases hmade⟩
    simp only [NameSpace.call, minixTmpfile]
    split
    · exact h
    · exact h

/-- No directory in memory has a hole. -/
def NameSpace.NoHoles (sb : Sb) (s : NameSpace) : Prop :=
  ∀ d dir, s.dirs d = some dir → dir.inode.NoHole sb

/-- The root directory of an image just mounted has its two entries in its first zone. -/
theorem NameSpace.Mounts.noHoles {s : NameSpace} {image : Image} {env : MkfsEnv}
    (hf : image.Formatted config env) (hs : s.Mounts sb image) : s.NoHoles sb := by
  obtain ⟨root, content, m, hdirs, his, -⟩ := hs.exists_root R H hf .little
  intro d dir hdir iblock hlt hidx
  simp only [hdirs] at hdir
  split at hdir
  · cases hdir
    obtain rfl := R.eq_zero_of_two_entries H (his.size ▸ hlt)
    have hidx0 : u32 (0 / (u32 sb.sbi.asbZoneSize / sb.sBlocksize)) = 0 := by
      rw [Nat.zero_div]
      rfl
    have hle := H.blocksPerZone_le
    rw [his.zone, if_pos hidx0, H.mkfsZoneBlock_eq, u32_of_lt (by omega)]
    omega
  · cases hdir

theorem NameiStep.noHoles {s s' : NameSpace} {t : NameTree} (ref : s.Refines order t)
    (h : s.NoHoles sb) (hs : NameiStep order sb s op r s') : s'.NoHoles sb := by
  cases hs with
  | @call dir hdir hname hfresh _ _ h0 =>
    obtain ⟨m, -, -, -, -, rdir⟩ := ref.of_dir hdir
    obtain ⟨hcall, hmade⟩ :=
      NameSpace.call_noHole R H rdir.wellFormed (h _ dir hdir) hname hfresh h0
    generalize s.call order sb dir op = r at hcall hmade
    have hkept : ∀ d dir', Function.update s.dirs op.dir
        (some { inode := r.dir, content := r.content }) d = some dir' → dir'.inode.NoHole sb := by
      intro d dir' hd
      rcases PartialMap.update_eq_some hd with ⟨-, hd⟩ | ⟨-, hd⟩
      · cases hd
        exact hcall
      · exact h d dir' hd
    intro d dir' hd
    cases heq : madeDir op r with
    | none =>
      rw [NameSpace.after, heq] at hd
      exact hkept d dir' hd
    | some made =>
      rw [NameSpace.after, heq] at hd
      rcases PartialMap.update_eq_some hd with ⟨-, hd⟩ | ⟨-, hd⟩
      · cases hd
        exact hmade _ heq
      · exact hkept d dir' hd

/-- In every run from an image just mounted, no directory has a hole. -/
theorem NameiStep.run_noHoles {s₀ s : NameSpace} {image : Image} {env : MkfsEnv}
    (hf : image.Formatted config env) (hmount : s₀.Mounts sb image)
    (t : Trace (NameiStep order sb) s₀ hist s) : s.NoHoles sb := by
  induction t with
  | nil => exact hmount.noHoles R H hf
  | snoc t hs ih =>
    obtain ⟨t₀, ref₀, T₀⟩ := hmount.refines R H hf
    obtain ⟨_, ref, -⟩ := NameiStep.run_refines R H ref₀ T₀ t
    exact hs.noHoles R H ref ih

end

section
variable {order : ByteOrder} {sb : Sb} {env : DirEnv} {zmap : MapBlocks} {dir : AufsInode}
  {content : Mem} {name : List Byte}

/-! ## Bits of the zone map -/

/-- From `zmap` to `zmap'`, each of the calls of `aufs_new_zone` that returned `newZones` has set at
most one bit, and no bit was cleared. -/
def Sb.TakesZones (sb : Sb) (zmap zmap' : MapBlocks) (newZones : List Int) : Prop :=
  ∃ zones : List Nat, zones.length ≤ newZones.length ∧ Gains (8 * sb.sBlocksize) zmap zmap' zones

theorem Sb.TakesZones.nil {sb : Sb} {zmap : MapBlocks} : sb.TakesZones zmap zmap [] :=
  ⟨[], Nat.le_refl _, .nil⟩

theorem Sb.TakesZones.append {sb : Sb} {zmap zmap' zmap'' : MapBlocks} {zs zs' : List Int}
    (h : sb.TakesZones zmap zmap' zs) (h' : sb.TakesZones zmap' zmap'' zs') :
    sb.TakesZones zmap zmap'' (zs ++ zs') := by
  obtain ⟨zones, hlen, hgains⟩ := h
  obtain ⟨zones', hlen', hgains'⟩ := h'
  refine ⟨zones ++ zones', ?_, hgains.append hgains'⟩
  rw [List.length_append, List.length_append]
  exact Nat.add_le_add hlen hlen'

theorem aufsNewZone_takesZones (sb : Sb) (zmap : MapBlocks) :
    sb.TakesZones zmap (aufsNewZone sb zmap).2 [(aufsNewZone sb zmap).1] := by
  rcases aufsNewZone_takes sb zmap with ⟨-, heq⟩ | ⟨k, zmap', zone, htakes, heq, -⟩
  · rw [heq]
    exact ⟨[], Nat.zero_le _, .nil⟩
  · rw [heq]
    exact ⟨[k], Nat.le_refl _, htakes.gains⟩

theorem minixPrepareChunk_takesZones (sb : Sb) (env : DirEnv) (zmap : MapBlocks) (inode : AufsInode)
    (pos : Nat) :
    sb.TakesZones zmap (minixPrepareChunk sb env zmap inode pos).zmap
      (minixPrepareChunk sb env zmap inode pos).newZone.toList := by
  have hzmap : (minixPrepareChunk sb env zmap inode pos).zmap =
      (aufsGetBlock sb zmap inode env.behind (pos / sb.sBlocksize) sb.sBlocksize true).zmap := by
    simp only [minixPrepareChunk]
    split
    · rfl
    · rfl
  rw [hzmap, minixPrepareChunk_newZone]
  simp only [aufsGetBlock]
  split
  · exact .nil
  · split
    · exact .nil
    · split
      · split
        · exact aufsNewZone_takesZones sb zmap
        · exact .nil
      · exact .nil

theorem minixMakeEmpty_takesZones (order : ByteOrder) (sb : Sb) (env : DirEnv) (zmap : MapBlocks)
    (inode : AufsInode) (content : Mem) (parent : Nat) :
    sb.TakesZones zmap (minixMakeEmpty order sb env zmap inode content parent).zmap
      (minixMakeEmpty order sb env zmap inode content parent).newZone.toList := by
  simp only [minixMakeEmpty]
  split
  · exact .nil
  · split
    · exact minixPrepareChunk_takesZones ..
    · exact minixPrepareChunk_takesZones ..

/-! ## `minix_add_link` -/

/-- The directory as it was, or with an entry for `name` whose page could not be written. -/
def KeptOrUnwritten (order : ByteOrder) (env : DirEnv) (dir : AufsInode) (content : Mem)
    (name : List Byte) (e : Errno) (dir' : AufsInode) (content' : Mem) : Prop :=
  (dir'.iSize = dir.iSize ∧ content' = content) ∨
    env.writeOnePage = .error e ∧
      ∃ pos ino, content' = putEntry order (env.pageCache dir content) pos ino name

/-- Of the inodes only the sizes matter. -/
theorem KeptOrUnwritten.congr {dir₁ dir' dir₁' : AufsInode}
    (h : KeptOrUnwritten order env dir content name e dir' content')
    (hdir : dir₁.iSize = dir.iSize) (hdir' : dir₁'.iSize = dir'.iSize) :
    KeptOrUnwritten order env dir₁ content name e dir₁' content' := by
  have hcache : env.pageCache dir₁ content = env.pageCache dir content := by
    funext a
    rw [DirEnv.pageCache, DirEnv.pageCache, hdir]
  unfold KeptOrUnwritten at h ⊢
  rwa [hdir, hdir', hcache]

/-- Everything `minix_add_link` does to the link count and the zone map, and what a failed call does
to the directory. -/
theorem minixAddLink_failed (order : ByteOrder) (sb : Sb) (env : DirEnv) (zmap : MapBlocks)
    (dir : AufsInode) (content : Mem) (name : List Byte) (ino : Nat) :
    (minixAddLink order sb env zmap dir content name ino).dir.iNlink = dir.iNlink ∧
    sb.TakesZones zmap (minixAddLink order sb env zmap dir content name ino).zmap
      (minixAddLink order sb env zmap dir content name ino).newZone.toList ∧
    ∀ e, (minixAddLink order sb env zmap dir content name ino).ret = some (.error e) →
      KeptOrUnwritten order env dir content name e
        (minixAddLink order sb env zmap dir content name ino).dir
        (minixAddLink order sb env zmap dir content name ino).content := by
  simp only [minixAddLink]
  split
  case h_1 | h_2 => exact ⟨rfl, .nil, fun _ _ => .inl ⟨rfl, rfl⟩⟩
  case h_3 pos hscan =>
    have hzones := minixPrepareChunk_takesZones sb env zmap dir pos
    obtain ⟨ptr, hinode⟩ := minixPrepareChunk_inode sb env zmap dir pos
    split
    · rw [hinode]
      exact ⟨rfl, hzones, fun _ _ => .inl ⟨rfl, rfl⟩⟩
    · simp only [hinode, dirCommitChunk]
      refine ⟨?_, hzones, fun e he => .inr ⟨Option.some.inj he, pos, ino, rfl⟩⟩
      split
      · rfl
      · rfl

end

/-! ## The calls -/

/-- How many zones a call asks for at most: one for the parent, and one for a new directory. -/
def NameiKind.zones : NameiKind → Nat
  | .mkdir _ _ => 2
  | _ => 1

section
variable {order : ByteOrder} {sb : Sb} {env : NameiEnv} {zmap imap : MapBlocks} {dir : AufsInode}
  {content : Mem} {name : List Byte} {pages : Mem} {e : Errno}

/-- `minix_mkdir` takes back the link it gave the parent. -/
theorem inodeDecLinkCount_inc {dir' : AufsInode} (hlt : dir.iNlink < 2 ^ 32)
    (h : dir'.iNlink = (inodeIncLinkCount dir).iNlink) :
    (inodeDecLinkCount dir').iNlink = dir.iNlink := by
  have hdec : (inodeDecLinkCount dir').iNlink = u32 (dir'.iNlink + 2 ^ 32 - 1) := rfl
  have hinc : (inodeIncLinkCount dir).iNlink = u32 (dir.iNlink + 1) := rfl
  rw [hdec, h, hinc, u32, u32]
  omega

end

/-! ## A file type that is rejected -/

/-- A call that reports that there is no inode left and has changed nothing that others can see. -/
structure OutOfInodes (s : NameSpace) (dir : DirState) (call : NameiCall) : Prop where
  ret : call.ret = some (.error .enospc)
  imap : call.imap = s.imap
  zmap : call.zmap = s.zmap
  size : call.dir.iSize = dir.inode.iSize
  content : call.content = dir.content
  nlink : call.dir.iNlink = dir.inode.iNlink

/-- The calls that test the result of `aufs_new_inode` before they use it. -/
def NameiKind.TestsInode : NameiKind → Prop
  | .mkdir _ _ | .tmpfile _ => True
  | .create _ _ | .mknod _ _ _ => False

theorem aufsNewInode_full {new : AufsInode}
    (h : RowFull (8 * sb.sBlocksize) sb.sbi.asbInodeMapBlocks imap) :
    aufsNewInode task sb imap (some new) dir mode = (.error .enospc, imap) := by
  rcases aufsNewInode_takes task sb imap new dir mode with ⟨-, heq⟩ | ⟨k, imap', htakes, -⟩
  · exact heq
  · cases htakes.clear.symm.trans (h k htakes.lt)

/-- `minix_mknod` returns nothing with a full map, or does not get as far as the map. -/
theorem minixMknod_full {order : ByteOrder} {env : NameiEnv} {zmap : MapBlocks} {content : Mem}
    {name : List Byte} {rdev : Nat} {pages : Mem}
    (h : RowFull (8 * sb.sBlocksize) sb.sbi.asbInodeMapBlocks imap) :
    (minixMknod order sb env zmap imap dir content name mode rdev pages).ret ≠
      some (.error .enospc) := by
  unfold minixMknod
  split
  · intro h
    cases h
  · cases hnew : env.new with
    | none =>
      intro h
      cases h
    | some new =>
      rw [aufsNewInode_full h]
      intro h
      cases h

/-- With every bit of the inode map set, a creation reports that no inode is left and leaves the
maps and the directory exactly when there was memory for the inode and the call is `minix_mkdir` or
`minix_tmpfile`: `minix_mknod`, and with it `minix_create`, prints the number of the inode before
the test. -/
theorem out_of_inodes_iff {order : ByteOrder} {sb : Sb} {s : NameSpace} {dir : DirState}
    {op : NameiOp} (hfull : RowFull (8 * sb.sBlocksize) sb.sbi.asbInodeMapBlocks s.imap)
    (hlt : dir.inode.iNlink < 2 ^ 32) :
    OutOfInodes s dir (s.call order sb dir op) ↔ op.env.new ≠ none ∧ op.kind.TestsInode := by
  obtain ⟨kind, d, env, pages⟩ := op
  cases kind with
  | create name mode | mknod name mode rdev =>
    constructor
    · intro h
      exact absurd h.ret (minixMknod_full hfull)
    · intro h
      exact absurd h.2 id
  | mkdir name mode =>
    simp only [NameSpace.call, minixMkdir]
    cases hnew : env.new with
    | none =>
      constructor
      · intro h
        cases h.ret
      · intro h
        exact absurd rfl h.1
    | some new =>
      rw [aufsNewInode_full hfull]
      constructor
      · intro _
        exact ⟨Option.some_ne_none new, trivial⟩
      · intro _
        exact ⟨rfl, rfl, rfl, by simp only [inodeDecLinkCount_iSize, inodeIncLinkCount_iSize], rfl,
          inodeDecLinkCount_inc hlt rfl⟩
  | tmpfile mode =>
    simp only [NameSpace.call, minixTmpfile]
    cases hnew : env.new with
    | none =>
      constructor
      · intro h
        cases h.ret
      · intro h
        exact absurd rfl h.1
    | some new =>
      rw [aufsNewInode_full hfull]
      constructor
      · intro _
        exact ⟨Option.some_ne_none new, trivial⟩
      · intro _
        exact ⟨rfl, rfl, rfl, rfl, rfl, rfl⟩

/-- A mounted file system all of whose inode numbers are taken. -/
def fullSpace : NameSpace where
  zmap := fun _ _ => 0
  imap := fun _ _ => BitVec.allOnes 8
  dirs := fun _ => none

theorem fullSpace_full (bits n : Nat) : RowFull bits n fullSpace.imap := by
  intro k _
  have hlt : k % bits % 8 < 8 := Nat.mod_lt _ (by decide)
  rw [rowBit, bit, fullSpace, BitVec.getLsbD_allOnes, decide_eq_true hlt]

/-- A call with memory for the inode, made in the directory with inode number 1. -/
def fullOp (kind : NameiKind) : NameiOp where
  kind := kind
  dir := 1
  env :=
    { task := ⟨0, 0, 0⟩, new := some (newInode fun _ => 0), dir := quietEnv, inode := quietEnv }
  pages := fun _ => 0

/-- An empty directory with inode number 1. -/
def emptyRoot : DirState where
  inode := { newInode fun _ => 0 with iIno := 1, iMode := S_IFDIR }
  content := fun _ => 0

/-- `minix_mkdir` and `minix_tmpfile` on an image of eight zones. -/
theorem out_of_inodes_eightZones :
    ∃ image, mkfs rootEnv 1 eightZones (blankDevice (2 ^ 20)) = some image ∧
      OutOfInodes fullSpace emptyRoot (fullSpace.call .little (aufsFillSb image.superBlock)
        emptyRoot (fullOp (.mkdir (ascii "d") 0o755))) ∧
      OutOfInodes fullSpace emptyRoot (fullSpace.call .little (aufsFillSb image.superBlock)
        emptyRoot (fullOp (.tmpfile 0o100600))) := by
  have H := accepted_of_parseArgs eightZones_parsed
  obtain ⟨image, himage, -, -⟩ := exists_image H rootEnv (blankDevice (2 ^ 20))
  have hlink : emptyRoot.inode.iNlink < 2 ^ 32 := by decide
  exact ⟨image, himage,
    (out_of_inodes_iff (fullSpace_full _ _) hlink).mpr ⟨Option.some_ne_none _, trivial⟩,
    (out_of_inodes_iff (fullSpace_full _ _) hlink).mpr ⟨Option.some_ne_none _, trivial⟩⟩

/-- `minix_create` follows the null pointer. -/
theorem create_null_inode :
    ∃ image, mkfs rootEnv 1 eightZones (blankDevice (2 ^ 20)) = some image ∧
      RowFull (8 * (aufsFillSb image.superBlock).sBlocksize)
        (aufsFillSb image.superBlock).sbi.asbInodeMapBlocks fullSpace.imap ∧
      (fullSpace.call .little (aufsFillSb image.superBlock) emptyRoot
        (fullOp (.create (ascii "f") 0o100644))).ret = none := by
  have H := accepted_of_parseArgs eightZones_parsed
  obtain ⟨image, himage, -, -⟩ := exists_image H rootEnv (blankDevice (2 ^ 20))
  refine ⟨image, himage, fullSpace_full _ _, ?_⟩
  have hdev : ¬oldValidDev 0 = false := by decide
  simp only [NameSpace.call, fullOp, minixCreate, minixMknod, if_neg hdev,
    aufsNewInode_full (fullSpace_full _ _)]

end Aufs
