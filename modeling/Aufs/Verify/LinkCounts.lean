import Aufs.Verify.FailedCreate

/-! Link counts of directories over mounts and unmounts. `minix_mkdir` counts a directory it makes
in the parent and takes the count back when it fails. A slot has no word for the count, and an inode
that is filled from one keeps the one link that `iget_locked` gives it. -/

namespace Aufs
open Bytes Word

variable {order : ByteOrder} {config : Configuration} {sb : Sb}

/-- A file system on its device: the maps and the directories in memory, and the slots. Every change
of a map marks its buffer dirty, so the maps stay over an unmount. -/
structure Volume where
  mounted : Bool
  space : NameSpace
  slot : Nat → Mem

inductive VolumeOp where
  | mount (leftover : Fin ZONE_PTR_IN_INODE_NUM → Nat) (content : Mem)
  | unmount
  | call (op : NameiOp)
  | inodeGet (ino : Nat) (leftover : Fin ZONE_PTR_IN_INODE_NUM → Nat) (content : Mem)
  | writeInode (ino : Nat)
  | evict (ino : Nat)

/-- Mounting sets bit 0 of both maps; the root is the first inode in memory. -/
def Volume.mountWith (sb : Sb) (s : Volume) (root : DirState) : Volume where
  mounted := true
  space :=
    { zmap := Function.update s.space.zmap 0 (minixSetBit 0 (s.space.zmap 0))
      imap := Function.update s.space.imap 0 (minixSetBit 0 (s.space.imap 0))
      dirs := fun d => if d = sb.sbi.asbRootInode then some root else none }
  slot := s.slot

/-- The slots once every dirty inode is written back. -/
def Volume.writeBack (ids : OverflowIds) (s : Volume) (ino : Nat) : Mem :=
  match s.space.dirs ino with
  | some dir =>
    if dir.inode.iDirty then v2MinixUpdateInode ids dir.inode (s.slot ino) else s.slot ino
  | none => s.slot ino

def Volume.setDir (s : Volume) (ino : Nat) (dir : Option DirState) : Volume :=
  { s with space := { s.space with dirs := Function.update s.space.dirs ino dir } }

/-- A mount may fail, as may a call; a call that follows a null pointer ends the run.
`aufs_inode_get` is called for numbers that entries name, whose bits are set, and fills an inode
that is not in memory. Any directory but the root may leave memory once it is clean. -/
inductive VolumeStep (order : ByteOrder) (sb : Sb) :
    Volume → VolumeOp → Option NameiCall → Volume → Prop
  | mount {s leftover content inode} : s.mounted = false →
    aufsInodeGet leftover sb.sbi.asbRootInode (s.slot sb.sbi.asbRootInode) = .ok inode →
    VolumeStep order sb s (.mount leftover content) none (s.mountWith sb { inode, content })
  | mountFailed {s leftover content} : s.mounted = false →
    VolumeStep order sb s (.mount leftover content) none s
  | unmount {s ids} : s.mounted = true →
    VolumeStep order sb s .unmount none
      { mounted := false, space := { s.space with dirs := fun _ => none }, slot := s.writeBack ids }
  | call {s op dir} : s.space.dirs op.dir = some dir →
    (∀ new ∈ op.env.new, ∃ leftover, new = newInode leftover) →
    (s.space.call order sb dir op).ret ≠ none →
    VolumeStep order sb s (.call op) (some (s.space.call order sb dir op))
      { s with space := s.space.after op (s.space.call order sb dir op) }
  | inodeGet {s ino leftover content inode} : s.mounted = true → s.space.dirs ino = none →
    bit (s.space.imap 0) ino = true → aufsInodeGet leftover ino (s.slot ino) = .ok inode →
    sIsDir inode.iMode = true →
    VolumeStep order sb s (.inodeGet ino leftover content) none
      (s.setDir ino (some { inode, content }))
  | writeInode {s ids ino dir} : s.space.dirs ino = some dir →
    VolumeStep order sb s (.writeInode ino) none
      { s.setDir ino (some { dir with inode := { dir.inode with iDirty := false } }) with
        slot := Function.update s.slot ino (v2MinixUpdateInode ids dir.inode (s.slot ino)) }
  | evict {s ino dir} : s.space.dirs ino = some dir → dir.inode.iDirty = false →
    ino ≠ sb.sbi.asbRootInode →
    VolumeStep order sb s (.evict ino) none (s.setDir ino none)

/-- The formatted image before its first mount. Each map has one block. -/
structure Volume.Holds (sb : Sb) (image : Image) (s : Volume) : Prop where
  mounted : s.mounted = false
  zmap : s.space.zmap 0 = image.zoneMap
  imap : s.space.imap 0 = image.inodeMap
  dirs : ∀ d, s.space.dirs d = none
  slot : s.slot sb.sbi.asbRootInode = image.rootSlot sb

/-- The directories that a history has made, each behind the directory it was made in. -/
def madeIn (hist : List (VolumeOp × Option NameiCall)) : List (Nat × Nat) :=
  hist.filterMap fun e =>
    match e with
    | (.call op, some r) => (madeDir op r).map fun made => (op.dir, made.inode.iIno)
    | _ => none

/-- The number of subdirectories of `d`; nothing takes a directory away. -/
def subdirs (hist : List (VolumeOp × Option NameiCall)) (d : Nat) : Nat :=
  (madeIn hist).countP fun e => e.1 = d

/-- The numbers for which `aufs_inode_get` read a slot since the last mount, which reads that of
the root. -/
def filled (root : Nat) (hist : List (VolumeOp × Option NameiCall)) : List Nat :=
  hist.foldl (fun inos e =>
    match e.1 with
    | .mount _ _ => [root]
    | .inodeGet ino _ _ => ino :: inos
    | _ => inos) []

/-! ## What one call does to link counts -/

section
variable {env : NameiEnv} {zmap imap : MapBlocks} {dir : AufsInode} {content : Mem}
  {name : List Byte} {pages : Mem}

theorem minixMakeEmpty_frame (order : ByteOrder) (sb : Sb) (env : DirEnv) (zmap : MapBlocks)
    (inode : AufsInode) (content : Mem) (parent : Nat) :
    (minixMakeEmpty order sb env zmap inode content parent).dir.iNlink = inode.iNlink ∧
      (minixMakeEmpty order sb env zmap inode content parent).dir.iIno = inode.iIno := by
  obtain ⟨ptr, hinode⟩ := minixPrepareChunk_inode sb env zmap inode 0
  simp only [minixMakeEmpty]
  split
  · exact ⟨rfl, rfl⟩
  · split
    · rw [hinode]
      exact ⟨rfl, rfl⟩
    · simp only [hinode, dirCommitChunk]
      split
      · exact ⟨rfl, rfl⟩
      · exact ⟨rfl, rfl⟩

/-- `aufs_new_inode` gives a free number, and one link. -/
theorem aufsNewInode_links (R : sb.Reads config)
    (hfresh : ∀ new ∈ env.new, ∃ leftover, new = newInode leftover)
    (h : aufsNewInode env.task sb imap env.new dir mode = (.ok inode, imap')) :
    inode.iNlink = 1 ∧ inode.iIno < 8 * sb.sBlocksize ∧ bit (imap 0) inode.iIno = false ∧
      bit (imap' 0) inode.iIno = true := by
  obtain ⟨n, j, hn, hj, -, hclear, rfl, rfl⟩ := aufsNewInode_ok R.inodeMapBlocks h
  obtain ⟨leftover, rfl⟩ := hfresh n hn
  refine ⟨?_, hj, hclear, ?_⟩
  · simp only [initInode, inodeInitOwner]
    split
    · rfl
    · rfl
  · change bit (Function.update imap 0 _ 0) j = true
    rw [Function.update_self, minixSetBit, bit_setBit, if_pos rfl]

/-- `minix_mknod` changes no link count but that of the new inode. -/
theorem minixMknod_links (R : sb.Reads config) (order : ByteOrder) (env : NameiEnv)
    (zmap imap : MapBlocks) (dir : AufsInode) (content : Mem) (name : List Byte) (mode rdev : Nat)
    (pages : Mem) :
    (minixMknod order sb env zmap imap dir content name mode rdev pages).dir.iNlink = dir.iNlink ∧
      ∀ k, bit (imap 0) k = true →
        bit ((minixMknod order sb env zmap imap dir content name mode rdev pages).imap 0) k =
          true := by
  unfold minixMknod
  split
  · exact ⟨rfl, fun _ hk => hk⟩
  · rcases hnew : aufsNewInode env.task sb imap env.new dir mode with ⟨res, imap'⟩
    have hmono := fun k => aufsNewInode_mono (k := k) R.inodeMapBlocks hnew
    cases res with
    | error e => exact ⟨rfl, hmono⟩
    | ok inode =>
      cases hset : minixSetInode inode with
      | error e =>
        simp only [hset]
        exact ⟨trivial, hmono⟩
      | ok u =>
        simp only [hset, addNondir]
        exact ⟨(minixAddLink_failed order sb env.dir zmap dir content name _).1, hmono⟩

/-- `minix_mkdir` makes a directory with two links and counts it in the parent, or leaves the count
of the parent. -/
theorem minixMkdir_links (R : sb.Reads config)
    (hfresh : ∀ new ∈ env.new, ∃ leftover, new = newInode leftover) (hlt : dir.iNlink < 2 ^ 32)
    (order : ByteOrder) (zmap imap : MapBlocks) (content : Mem) (name : List Byte) (mode : Nat)
    (pages : Mem) :
    (∀ k, bit (imap 0) k = true →
      bit ((minixMkdir order sb env zmap imap dir content name mode pages).imap 0) k = true) ∧
    (((minixMkdir order sb env zmap imap dir content name mode pages).ret ≠ some (.ok ()) ∧
      (minixMkdir order sb env zmap imap dir content name mode pages).dir.iNlink = dir.iNlink) ∨
    (minixMkdir order sb env zmap imap dir content name mode pages).ret = some (.ok ()) ∧
      (minixMkdir order sb env zmap imap dir content name mode pages).dir.iNlink =
        u32 (dir.iNlink + 1) ∧
      ∃ inode content', (minixMkdir order sb env zmap imap dir content name mode pages).inode =
          some (inode, content') ∧
        inode.iNlink = 2 ∧ inode.iIno < 8 * sb.sBlocksize ∧ bit (imap 0) inode.iIno = false ∧
        bit ((minixMkdir order sb env zmap imap dir content name mode pages).imap 0)
          inode.iIno = true) := by
  simp only [minixMkdir]
  rcases hnew : aufsNewInode env.task sb imap env.new (inodeIncLinkCount dir)
    (S_IFDIR ||| mode) with ⟨res, imap'⟩
  have hmono := fun k => aufsNewInode_mono (k := k) R.inodeMapBlocks hnew
  cases res with
  | error e =>
    refine ⟨hmono, .inl ⟨?_, inodeDecLinkCount_inc hlt rfl⟩⟩
    intro h
    cases h
  | ok inode =>
    obtain ⟨hnlink, hino, hclear, hset⟩ := aufsNewInode_links R hfresh hnew
    have hmade := minixMakeEmpty_frame order sb env.inode zmap (inodeIncLinkCount inode) pages
      (inodeIncLinkCount dir).iIno
    simp only
    generalize minixMakeEmpty order sb env.inode zmap (inodeIncLinkCount inode) pages
      (inodeIncLinkCount dir).iIno = made at hmade
    have hlink := (minixAddLink_failed order sb env.dir made.zmap (inodeIncLinkCount dir) content
      name (inodeIncLinkCount inode).iIno).1
    generalize minixAddLink order sb env.dir made.zmap (inodeIncLinkCount dir) content name
      (inodeIncLinkCount inode).iIno = link at hlink
    split
    · by_cases hret : link.ret = some (.ok ())
      · simp only [hret]
        refine ⟨hmono, .inr ⟨trivial, hlink, _, _, rfl, ?_, ?_⟩⟩
        · rw [hmade.1]
          change u32 (inode.iNlink + 1) = 2
          rw [hnlink]
          rfl
        · rw [hmade.2, inodeIncLinkCount_iIno]
          exact ⟨hino, hclear, hset⟩
      · refine ⟨hmono, .inl ⟨hret, ?_⟩⟩
        split
        · contradiction
        · exact inodeDecLinkCount_inc hlt hlink
    · exact ⟨hmono, .inl ⟨‹_›, inodeDecLinkCount_inc hlt rfl⟩⟩

end

/-- The four calls together. -/
theorem NameSpace.call_links (R : sb.Reads config) {s : NameSpace} {dir : DirState} {op : NameiOp}
    (hfresh : ∀ new ∈ op.env.new, ∃ leftover, new = newInode leftover)
    (hlt : dir.inode.iNlink < 2 ^ 32) (order : ByteOrder) :
    (∀ k, bit (s.imap 0) k = true → bit ((s.call order sb dir op).imap 0) k = true) ∧
    ((madeDir op (s.call order sb dir op) = none ∧
      (s.call order sb dir op).dir.iNlink = dir.inode.iNlink) ∨
    ∃ made, madeDir op (s.call order sb dir op) = some made ∧
      (s.call order sb dir op).dir.iNlink = u32 (dir.inode.iNlink + 1) ∧
      made.inode.iNlink = 2 ∧ made.inode.iIno < 8 * sb.sBlocksize ∧
      bit (s.imap 0) made.inode.iIno = false ∧
      bit ((s.call order sb dir op).imap 0) made.inode.iIno = true) := by
  obtain ⟨kind, d, env, pages⟩ := op
  cases kind with
  | create name mode | mknod name mode rdev =>
    obtain ⟨hnlink, hmono⟩ := minixMknod_links R order env s.zmap s.imap dir.inode dir.content name
      mode _ pages
    exact ⟨hmono, .inl ⟨rfl, hnlink⟩⟩
  | mkdir name mode =>
    obtain ⟨hmono, hcases⟩ := minixMkdir_links R hfresh hlt order s.zmap s.imap dir.content name
      mode pages
    refine ⟨hmono, ?_⟩
    rcases hcases with ⟨hret, hnlink⟩ | ⟨hret, hnlink, inode, content, hinode, hmade⟩
    · refine .inl ⟨?_, hnlink⟩
      simp only [madeDir]
      split
      · contradiction
      · rfl
    · refine .inr ⟨{ inode, content }, ?_, hnlink, hmade⟩
      simp only [madeDir, NameSpace.call, hret, hinode]
  | tmpfile mode =>
    rcases hnew : aufsNewInode env.task sb s.imap env.new dir.inode mode with ⟨res, imap'⟩
    have hmono := fun k => aufsNewInode_mono (k := k) R.inodeMapBlocks hnew
    simp only [NameSpace.call, minixTmpfile, hnew]
    cases res with
    | error e => exact ⟨hmono, .inl ⟨rfl, rfl⟩⟩
    | ok inode => exact ⟨hmono, .inl ⟨rfl, rfl⟩⟩

/-! ## Runs -/

section
variable {hist : List (VolumeOp × Option NameiCall)}

@[simp] theorem madeIn_append (hist hist' : List (VolumeOp × Option NameiCall)) :
    madeIn (hist ++ hist') = madeIn hist ++ madeIn hist' := List.filterMap_append

/-- A step that is no call makes no directory. -/
theorem madeIn_none (op : VolumeOp) : madeIn [(op, none)] = [] := by
  cases op with
  | call op => rfl
  | mount | unmount | inodeGet | writeInode | evict => rfl

theorem madeIn_call (op : NameiOp) (r : NameiCall) :
    madeIn [(.call op, some r)] =
      ((madeDir op r).map fun made => (op.dir, made.inode.iIno)).toList := by
  simp only [madeIn, List.filterMap_cons, List.filterMap_nil]
  cases madeDir op r with
  | none => rfl
  | some made => rfl

theorem subdirs_append (hist hist' : List (VolumeOp × Option NameiCall)) (d : Nat) :
    subdirs (hist ++ hist') d = subdirs hist d + subdirs hist' d := by
  rw [subdirs, madeIn_append, List.countP_append]
  rfl

theorem subdirs_none (hist : List (VolumeOp × Option NameiCall)) (op : VolumeOp) (d : Nat) :
    subdirs (hist ++ [(op, none)]) d = subdirs hist d := by
  rw [subdirs, madeIn_append, madeIn_none, List.append_nil]
  rfl

theorem subdirs_call_none {op : NameiOp} {r : NameiCall} (h : madeDir op r = none) (d : Nat) :
    subdirs [(.call op, some r)] d = 0 := by
  rw [subdirs, madeIn_call, h]
  rfl

theorem subdirs_call_made {op : NameiOp} {r : NameiCall} {made : DirState}
    (h : madeDir op r = some made) (d : Nat) :
    subdirs [(.call op, some r)] d = if op.dir = d then 1 else 0 := by
  rw [subdirs, madeIn_call, h]
  change List.countP _ [(op.dir, made.inode.iIno)] = _
  rw [List.countP_singleton]
  simp

theorem filled_snoc (root : Nat) (hist : List (VolumeOp × Option NameiCall)) (op : VolumeOp)
    (out : Option NameiCall) :
    filled root (hist ++ [(op, out)]) =
      match op with
      | .mount _ _ => [root]
      | .inodeGet ino _ _ => ino :: filled root hist
      | _ => filled root hist := by
  rw [filled, List.foldl_append]
  rfl

/-- The link count that the source of an inode in memory allows it: one filled from its slot starts
from one link, whatever it has below it. -/
def LinksOf (isFilled : Prop) (subdirs nlink : Nat) : Prop :=
  (isFilled ∧ nlink ≤ 1 + subdirs) ∨ (¬isFilled ∧ nlink = 2 + subdirs)

theorem LinksOf.eq_iff (h : LinksOf p n nlink) : nlink = 2 + n ↔ ¬p := by
  rcases h with ⟨hp, hle⟩ | ⟨hp, heq⟩
  · refine ⟨fun heq => ?_, fun hnot => absurd hp hnot⟩
    omega
  · exact ⟨fun _ => hp, fun _ => heq⟩

theorem LinksOf.le (h : LinksOf p n nlink) : nlink ≤ 2 + n := by
  rcases h with ⟨-, hle⟩ | ⟨-, heq⟩
  · omega
  · omega

/-- One more subdirectory. -/
theorem LinksOf.inc (h : LinksOf p n nlink) (hlt : 3 + n < 2 ^ 32) :
    LinksOf p (n + 1) (u32 (nlink + 1)) := by
  have hle := h.le
  rw [u32_of_lt (show nlink + 1 < 2 ^ 32 by omega)]
  rcases h with ⟨hp, hle⟩ | ⟨hp, heq⟩
  · exact .inl ⟨hp, by omega⟩
  · exact .inr ⟨hp, by omega⟩

/-- A call drops no directory. -/
theorem NameSpace.after_isSome {s : NameSpace} (op : NameiOp) (r : NameiCall)
    (h : (s.dirs d).isSome) : ((s.after op r).dirs d).isSome := by
  have hdir := PartialMap.isSome_update op.dir { inode := r.dir, content := r.content } h
  unfold NameSpace.after
  cases madeDir op r with
  | none => exact hdir
  | some made => exact PartialMap.isSome_update _ _ hdir

/-- What every run keeps. Numbers are given once: a directory that was made, a directory with
subdirectories and an inode in memory all have their bits set. -/
structure Volume.Counted (sb : Sb) (hist : List (VolumeOp × Option NameiCall)) (s : Volume) :
    Prop where
  empty : s.mounted = false → ∀ d, s.space.dirs d = none
  root : s.mounted = true →
    (s.space.dirs sb.sbi.asbRootInode).isSome ∧
      sb.sbi.asbRootInode ∈ filled sb.sbi.asbRootInode hist
  rootUsed : bit (s.space.imap 0) sb.sbi.asbRootInode = true
  filledUsed : ∀ d ∈ filled sb.sbi.asbRootInode hist, bit (s.space.imap 0) d = true
  used : ∀ d dir, s.space.dirs d = some dir → bit (s.space.imap 0) d = true
  parents : ∀ e ∈ madeIn hist, bit (s.space.imap 0) e.1 = true
  made : ∀ e ∈ madeIn hist, e.2 < 8 * sb.sBlocksize ∧ bit (s.space.imap 0) e.2 = true
  once : ((madeIn hist).map Prod.snd).Nodup
  links : ∀ d dir, s.space.dirs d = some dir →
    LinksOf (d ∈ filled sb.sbi.asbRootInode hist) (subdirs hist d) dir.inode.iNlink

namespace Volume.Counted

variable {s s' : Volume}

theorem mounted_of {dir : DirState} (C : s.Counted sb hist) (hdir : s.space.dirs d = some dir) :
    s.mounted = true := by
  cases hm : s.mounted with
  | true => rfl
  | false => cases (C.empty hm d).symm.trans hdir

/-- There are at most as many directories as numbers. -/
theorem subdirs_le (C : s.Counted sb hist) (d : Nat) : subdirs hist d ≤ 8 * sb.sBlocksize := by
  have hsub : (madeIn hist).map Prod.snd ⊆ List.range (8 * sb.sBlocksize) := by
    intro k hk
    obtain ⟨e, he, rfl⟩ := List.mem_map.mp hk
    exact List.mem_range.mpr (C.made e he).1
  calc subdirs hist d ≤ (madeIn hist).length := List.countP_le_length
    _ = ((madeIn hist).map Prod.snd).length := (List.length_map _).symm
    _ ≤ (List.range (8 * sb.sBlocksize)).length := C.once.length_le_of_subset hsub
    _ = 8 * sb.sBlocksize := List.length_range

/-- A free number has no subdirectories. -/
theorem subdirs_free (C : s.Counted sb hist) (h : bit (s.space.imap 0) d = false) :
    subdirs hist d = 0 := by
  refine List.countP_eq_zero.mpr fun e he heq => ?_
  have hd := C.parents e he
  rw [of_decide_eq_true heq, h] at hd
  cases hd

/-- What is left to show of a step that makes the directory `new`, if any. -/
theorem snoc (C : s.Counted sb hist) {e : VolumeOp × Option NameiCall}
    (new : Option (Nat × Nat)) (hmade : madeIn [e] = new.toList)
    (hbits : ∀ k, bit (s.space.imap 0) k = true → bit (s'.space.imap 0) k = true)
    (hnew : ∀ p ∈ new, bit (s.space.imap 0) p.1 = true ∧ p.2 < 8 * sb.sBlocksize ∧
      bit (s.space.imap 0) p.2 = false ∧ bit (s'.space.imap 0) p.2 = true)
    (hempty : s'.mounted = false → ∀ d, s'.space.dirs d = none)
    (hroot : s'.mounted = true →
      (s'.space.dirs sb.sbi.asbRootInode).isSome ∧
        sb.sbi.asbRootInode ∈ filled sb.sbi.asbRootInode (hist ++ [e]))
    (hfilled : ∀ d ∈ filled sb.sbi.asbRootInode (hist ++ [e]), bit (s'.space.imap 0) d = true)
    (hdirs : ∀ d dir, s'.space.dirs d = some dir → bit (s'.space.imap 0) d = true ∧
      LinksOf (d ∈ filled sb.sbi.asbRootInode (hist ++ [e])) (subdirs (hist ++ [e]) d)
        dir.inode.iNlink) :
    s'.Counted sb (hist ++ [e]) := by
  have hmem : ∀ p ∈ madeIn (hist ++ [e]), p ∈ madeIn hist ∨ p ∈ new := by
    intro p hp
    rw [madeIn_append, hmade, List.mem_append, Option.mem_toList] at hp
    exact hp
  constructor
  case empty => exact hempty
  case root => exact hroot
  case rootUsed => exact hbits _ C.rootUsed
  case filledUsed => exact hfilled
  case used => exact fun d dir hd => (hdirs d dir hd).1
  case parents =>
    intro p hp
    rcases hmem p hp with hp | hp
    · exact hbits _ (C.parents p hp)
    · exact hbits _ (hnew p hp).1
  case made =>
    intro p hp
    rcases hmem p hp with hp | hp
    · exact ⟨(C.made p hp).1, hbits _ (C.made p hp).2⟩
    · exact ⟨(hnew p hp).2.1, (hnew p hp).2.2.2⟩
  case once =>
    rw [madeIn_append, hmade, List.map_append]
    cases new with
    | none => simpa using C.once
    | some p =>
      refine List.nodup_append.mpr ⟨C.once, List.nodup_singleton _, ?_⟩
      rintro _ hk _ hk' rfl
      obtain ⟨q, hq, heq⟩ := List.mem_map.mp hk
      have hclear := (hnew p rfl).2.2.1
      rw [← List.mem_singleton.mp hk', ← heq, (C.made q hq).2] at hclear
      cases hclear
  case links => exact fun d dir hd => (hdirs d dir hd).2

/-- What is left to show of a step that is no call. -/
theorem snoc_none (C : s.Counted sb hist) (op : VolumeOp)
    (hbits : ∀ k, bit (s.space.imap 0) k = true → bit (s'.space.imap 0) k = true)
    (hempty : s'.mounted = false → ∀ d, s'.space.dirs d = none)
    (hroot : s'.mounted = true →
      (s'.space.dirs sb.sbi.asbRootInode).isSome ∧
        sb.sbi.asbRootInode ∈ filled sb.sbi.asbRootInode (hist ++ [(op, none)]))
    (hfilled : ∀ d ∈ filled sb.sbi.asbRootInode (hist ++ [(op, none)]),
      bit (s'.space.imap 0) d = true)
    (hdirs : ∀ d dir, s'.space.dirs d = some dir → bit (s'.space.imap 0) d = true ∧
      LinksOf (d ∈ filled sb.sbi.asbRootInode (hist ++ [(op, none)])) (subdirs hist d)
        dir.inode.iNlink) :
    s'.Counted sb (hist ++ [(op, none)]) := by
  refine C.snoc none (madeIn_none op) hbits nofun hempty hroot hfilled fun d dir hd => ?_
  rw [subdirs_none]
  exact hdirs d dir hd

/-- A mount leaves nothing in memory but the root, which has one link. -/
theorem mount {inode : AufsInode} (C : s.Counted sb hist)
    (h : aufsInodeGet leftover sb.sbi.asbRootInode di = .ok inode) (content : Mem) :
    (s.mountWith sb { inode, content }).Counted sb (hist ++ [(.mount leftover content, none)]) := by
  have hbits : ∀ k, bit (s.space.imap 0) k = true →
      bit ((s.mountWith sb { inode, content }).space.imap 0) k = true := by
    intro k hk
    change bit (Function.update s.space.imap 0 (minixSetBit 0 (s.space.imap 0)) 0) k = true
    rw [Function.update_self, minixSetBit, bit_setBit, hk]
    exact ite_self true
  refine C.snoc_none _ hbits (fun h => by cases h) (fun _ => ⟨?_, ?_⟩) ?_ ?_
  · exact Option.isSome_iff_exists.mpr ⟨_, if_pos rfl⟩
  · rw [filled_snoc]
    exact List.mem_singleton_self _
  · rw [filled_snoc]
    intro d hd
    rw [List.mem_singleton.mp hd]
    exact hbits _ C.rootUsed
  · intro d dir hd
    change (if d = sb.sbi.asbRootInode then _ else none) = some dir at hd
    split at hd
    · rename_i heq
      cases hd
      subst heq
      rw [filled_snoc]
      refine ⟨hbits _ C.rootUsed, .inl ⟨List.mem_singleton_self _, ?_⟩⟩
      rw [aufsInodeGet_ok h]
      exact Nat.le_add_right ..
    · cases hd

/-- A directory is filled, written back or dropped. -/
theorem setDir (C : s.Counted sb hist) (op : VolumeOp) (slot : Nat → Mem) {dir : Option DirState}
    (hmounted : s.mounted = true) (hino : bit (s.space.imap 0) ino = true)
    (hroot : ino = sb.sbi.asbRootInode → dir.isSome)
    (hmono : ∀ d ∈ filled sb.sbi.asbRootInode hist,
      d ∈ filled sb.sbi.asbRootInode (hist ++ [(op, none)]))
    (hfilled : ∀ d ∈ filled sb.sbi.asbRootInode (hist ++ [(op, none)]),
      d = ino ∨ d ∈ filled sb.sbi.asbRootInode hist)
    (hlinks : ∀ dir', dir = some dir' →
      LinksOf (ino ∈ filled sb.sbi.asbRootInode (hist ++ [(op, none)])) (subdirs hist ino)
        dir'.inode.iNlink) :
    Volume.Counted sb (hist ++ [(op, none)]) { s.setDir ino dir with slot } := by
  have hrest : ∀ d ≠ ino, d ∈ filled sb.sbi.asbRootInode (hist ++ [(op, none)]) ↔
      d ∈ filled sb.sbi.asbRootInode hist :=
    fun d hd => ⟨fun h => (hfilled d h).resolve_left hd, hmono d⟩
  refine C.snoc_none op (fun _ hk => hk) ?_ (fun _ => ⟨?_, hmono _ (C.root hmounted).2⟩) ?_ ?_
  · intro hnot
    cases hmounted.symm.trans hnot
  · change (Function.update s.space.dirs ino dir _).isSome
    by_cases heq : sb.sbi.asbRootInode = ino
    · rw [heq, Function.update_self]
      exact hroot heq.symm
    · rw [Function.update_of_ne heq]
      exact (C.root hmounted).1
  · intro d hd
    rcases hfilled d hd with rfl | hd
    · exact hino
    · exact C.filledUsed d hd
  · intro d dir' hd
    rcases PartialMap.update_eq_some hd with ⟨rfl, rfl⟩ | ⟨hne, hd⟩
    · exact ⟨hino, hlinks dir' rfl⟩
    · refine ⟨C.used d dir' hd, ?_⟩
      rw [hrest d hne]
      exact C.links d dir' hd

section
variable {op : NameiOp} {dir dir' made : DirState} {r : NameiCall}

/-- The directories after a call that made none. -/
theorem links_after_none (C : s.Counted sb hist) (hdir : s.space.dirs op.dir = some dir)
    (hbits : ∀ k, bit (s.space.imap 0) k = true → bit (r.imap 0) k = true)
    (hmade : madeDir op r = none) (hnlink : r.dir.iNlink = dir.inode.iNlink)
    (hd : (s.space.after op r).dirs d = some dir') :
    bit (r.imap 0) d = true ∧ LinksOf (d ∈ filled sb.sbi.asbRootInode hist)
      (subdirs (hist ++ [(.call op, some r)]) d) dir'.inode.iNlink := by
  rw [subdirs_append, subdirs_call_none hmade]
  simp only [NameSpace.after, hmade] at hd
  rcases PartialMap.update_eq_some hd with ⟨rfl, heq⟩ | ⟨-, hd⟩
  · cases heq
    refine ⟨hbits _ (C.used _ _ hdir), ?_⟩
    rw [hnlink]
    exact C.links _ _ hdir
  · exact ⟨hbits _ (C.used d dir' hd), C.links d dir' hd⟩

/-- The directories after a call that made one. -/
theorem links_after_made (C : s.Counted sb hist) (hbs : 8 * sb.sBlocksize < 2 ^ 31)
    (hdir : s.space.dirs op.dir = some dir)
    (hbits : ∀ k, bit (s.space.imap 0) k = true → bit (r.imap 0) k = true)
    (hmade : madeDir op r = some made) (hnlink : r.dir.iNlink = u32 (dir.inode.iNlink + 1))
    (htwo : made.inode.iNlink = 2) (hclear : bit (s.space.imap 0) made.inode.iIno = false)
    (hset : bit (r.imap 0) made.inode.iIno = true)
    (hd : (s.space.after op r).dirs d = some dir') :
    bit (r.imap 0) d = true ∧ LinksOf (d ∈ filled sb.sbi.asbRootInode hist)
      (subdirs (hist ++ [(.call op, some r)]) d) dir'.inode.iNlink := by
  have hother : op.dir ≠ made.inode.iIno := by
    intro heq
    have hused := C.used _ _ hdir
    rw [heq, hclear] at hused
    cases hused
  rw [subdirs_append, subdirs_call_made hmade]
  simp only [NameSpace.after, hmade] at hd
  rcases PartialMap.update_eq_some hd with ⟨rfl, heq⟩ | ⟨-, hd⟩
  · cases heq
    -- the number was free, so it has no subdirectory and no inode was filled for it
    rw [if_neg hother, C.subdirs_free hclear, htwo]
    refine ⟨hset, .inr ⟨fun hmem => ?_, rfl⟩⟩
    cases hclear.symm.trans (C.filledUsed _ hmem)
  · rcases PartialMap.update_eq_some hd with ⟨rfl, heq⟩ | ⟨hne, hd⟩
    · cases heq
      have hle := C.subdirs_le op.dir
      rw [if_pos rfl, hnlink]
      exact ⟨hbits _ (C.used _ _ hdir), (C.links _ _ hdir).inc (by omega)⟩
    · rw [if_neg (Ne.symm hne)]
      exact ⟨hbits _ (C.used d dir' hd), C.links d dir' hd⟩

/-- A call changes the link count of its directory only if it makes another one. -/
theorem call (C : s.Counted sb hist) (hbs : 8 * sb.sBlocksize < 2 ^ 31)
    (hdir : s.space.dirs op.dir = some dir)
    (hbits : ∀ k, bit (s.space.imap 0) k = true → bit (r.imap 0) k = true)
    (hcases : (madeDir op r = none ∧ r.dir.iNlink = dir.inode.iNlink) ∨
      ∃ made, madeDir op r = some made ∧ r.dir.iNlink = u32 (dir.inode.iNlink + 1) ∧
        made.inode.iNlink = 2 ∧ made.inode.iIno < 8 * sb.sBlocksize ∧
        bit (s.space.imap 0) made.inode.iIno = false ∧ bit (r.imap 0) made.inode.iIno = true) :
    Volume.Counted sb (hist ++ [(.call op, some r)]) { s with space := s.space.after op r } := by
  have hmounted := C.mounted_of hdir
  refine C.snoc _ (madeIn_call op r) hbits ?_ ?_ (fun _ => ⟨?_, ?_⟩) ?_ ?_
  · intro p hp
    rcases hcases with ⟨hmade, -⟩ | ⟨made, hmade, -, -, hlt, hclear, hset⟩
    · rw [hmade] at hp
      cases hp
    · rw [hmade] at hp
      cases hp
      exact ⟨C.used _ _ hdir, hlt, hclear, hset⟩
  · intro hnot
    cases hmounted.symm.trans hnot
  · exact NameSpace.after_isSome op r (C.root hmounted).1
  · rw [filled_snoc]
    exact (C.root hmounted).2
  · rw [filled_snoc]
    exact fun d hd => hbits d (C.filledUsed d hd)
  · rw [filled_snoc]
    intro d dir' hd
    rcases hcases with ⟨hmade, hnlink⟩ | ⟨made, hmade, hnlink, htwo, -, hclear, hset⟩
    · exact C.links_after_none hdir hbits hmade hnlink hd
    · exact C.links_after_made hbs hdir hbits hmade hnlink htwo hclear hset hd

end

end Volume.Counted

/-- Every step keeps the counts. -/
theorem VolumeStep.counted {s s' : Volume} (R : sb.Reads config) (H : config.Accepted)
    (C : s.Counted sb hist) (hs : VolumeStep order sb s op out s') :
    s'.Counted sb (hist ++ [(op, out)]) := by
  have hbs := R.bits_lt H
  cases hs with
  | mount _ hget => exact C.mount hget _
  | mountFailed hm =>
    refine C.snoc_none _ (fun _ hk => hk) C.empty (fun h => absurd (hm.symm.trans h) nofun) ?_ ?_
    · rw [filled_snoc]
      intro d hd
      rw [List.mem_singleton.mp hd]
      exact C.rootUsed
    · intro d dir hd
      cases (C.empty hm d).symm.trans hd
  | unmount =>
    refine C.snoc_none _ (fun _ hk => hk) (fun _ _ => rfl) nofun ?_ nofun
    rw [filled_snoc]
    exact C.filledUsed
  | @call op dir hdir hfresh =>
    have hlt : dir.inode.iNlink < 2 ^ 32 := by
      have hle := (C.links _ _ hdir).le
      have hsub := C.subdirs_le op.dir
      omega
    obtain ⟨hbits, hcases⟩ := NameSpace.call_links R hfresh hlt order
    exact C.call hbs hdir hbits hcases
  | @inodeGet ino leftover content inode hm hnone hbit hget =>
    have hfilled := filled_snoc sb.sbi.asbRootInode hist (.inodeGet ino leftover content) none
    refine C.setDir _ s.slot hm hbit (fun _ => rfl) ?_ ?_ ?_
    · rw [hfilled]
      exact fun d hd => List.mem_cons_of_mem _ hd
    · rw [hfilled]
      exact fun d hd => List.mem_cons.mp hd
    · rintro _ ⟨⟩
      rw [hfilled, aufsInodeGet_ok hget]
      exact .inl ⟨List.mem_cons_self, Nat.le_add_right ..⟩
  | @writeInode _ ino dir hdir =>
    have hfilled := filled_snoc sb.sbi.asbRootInode hist (.writeInode ino) none
    refine C.setDir _ _ (C.mounted_of hdir) (C.used _ _ hdir) (fun _ => rfl) ?_ ?_ ?_
    · rw [hfilled]
      exact fun d hd => hd
    · rw [hfilled]
      exact fun d hd => .inr hd
    · rintro _ ⟨⟩
      rw [hfilled]
      exact C.links ino dir hdir
  | @evict ino dir hdir _ hne =>
    have hfilled := filled_snoc sb.sbi.asbRootInode hist (.evict ino) none
    refine C.setDir _ s.slot (C.mounted_of hdir) (C.used _ _ hdir) (fun h => absurd h hne) ?_ ?_
      nofun
    · rw [hfilled]
      exact fun d hd => hd
    · rw [hfilled]
      exact fun d hd => .inr hd

/-- The image before its first mount. -/
theorem Volume.Holds.counted {s : Volume} {image : Image} {env : MkfsEnv} (R : sb.Reads config)
    (H : config.Accepted) (hf : image.Formatted config env) (hs : s.Holds sb image) :
    s.Counted sb [] where
  empty _ := hs.dirs
  root h := by cases hs.mounted.symm.trans h
  rootUsed := by
    have hbs := H.blockSize_cases
    have hmap := hf.inodeMap 1 (by omega)
    rw [hs.imap, R.rootInode]
    cases hb : bit image.inodeMap 1 with
    | true => rfl
    | false =>
      have := hmap.mp hb
      omega
  filledUsed d hd := absurd hd List.not_mem_nil
  used d dir hd := by cases (hs.dirs d).symm.trans hd
  parents e he := absurd he List.not_mem_nil
  made e he := absurd he List.not_mem_nil
  once := List.nodup_nil
  links d dir hd := by cases (hs.dirs d).symm.trans hd

/-- Every run keeps the counts. -/
theorem VolumeStep.run_counted {s₀ s : Volume} (R : sb.Reads config) (H : config.Accepted)
    (C : s₀.Counted sb []) (t : Trace (VolumeStep order sb) s₀ hist s) : s.Counted sb hist := by
  refine t.simulation (R := fun hist s => s.Counted sb hist) (fun _ => trivial) C ?_
  intro hist s op out s' _ C hs
  exact hs.counted R H C

end

/-- In every run of mounts, unmounts, calls, write-backs and evictions, a directory in memory has
two links and one more for each of its subdirectories if and only if `aufs_inode_get` has not filled
it since the last mount. The mount fills the root, so while a file system is mounted the count of
its root is wrong. -/
theorem link_count_iff {deviceSize : String → Nat} {argv : List String} {env : MkfsEnv}
    {fuel : Nat} {dev : Device} {image : Image} {hist : List (VolumeOp × Option NameiCall)}
    {s₀ s : Volume} (hargs : parseArgs deviceSize argv = .ok config)
    (himage : mkfs env fuel config dev = some image)
    (hsb : sb = aufsFillSb image.superBlock) (hstart : s₀.Holds sb image)
    (t : Trace (VolumeStep order sb) s₀ hist s) :
    (∀ d dir, s.space.dirs d = some dir →
      (dir.inode.iNlink = 2 + subdirs hist d ↔ d ∉ filled sb.sbi.asbRootInode hist)) ∧
    (s.mounted = true → ∃ root, s.space.dirs sb.sbi.asbRootInode = some root ∧
      root.inode.iNlink ≠ 2 + subdirs hist sb.sbi.asbRootInode) := by
  have H := accepted_of_parseArgs hargs
  have hf := mkfs_formatted H himage
  have R : sb.Reads config := hsb ▸ aufsFillSb_reads H hf
  have C := VolumeStep.run_counted R H (hstart.counted R H hf) t
  refine ⟨fun d dir hd => (C.links d dir hd).eq_iff, fun hm => ?_⟩
  obtain ⟨hsome, hmem⟩ := C.root hm
  obtain ⟨root, hroot⟩ := Option.isSome_iff_exists.mp hsome
  exact ⟨root, hroot, fun heq => (C.links _ root hroot).eq_iff.mp heq hmem⟩

/-- The first mount of a formatted image. -/
theorem Volume.exists_mount {image : Image} {env : MkfsEnv} (H : config.Accepted)
    (R : sb.Reads config) (hf : image.Formatted config env) (order : ByteOrder) :
    ∃ s₀ s leftover content, s₀.Holds sb image ∧
      VolumeStep order sb s₀ (.mount leftover content) none s ∧ s.space.Mounts sb image := by
  obtain ⟨root, hget, -⟩ := aufsInodeGet_root H R hf (fun _ => 0)
  let s₀ : Volume :=
    { mounted := false
      space :=
        { zmap := Function.update (fun _ => minixSetBit 0 image.zoneMap) 0 image.zoneMap
          imap := Function.update (fun _ => minixSetBit 0 image.inodeMap) 0 image.inodeMap
          dirs := fun _ => none }
      slot := fun _ => image.rootSlot sb }
  have hmap : ∀ m : Mem, Function.update (Function.update (fun _ => minixSetBit 0 m) 0 m) 0
      (minixSetBit 0 (Function.update (fun _ => minixSetBit 0 m) 0 m 0)) =
        fun _ : Nat => minixSetBit 0 m := by
    intro m
    rw [Function.update_self, Function.update_idem]
    exact Function.update_eq_self 0 _
  refine ⟨s₀, _, _, image.rootContent, ⟨rfl, rfl, rfl, fun _ => rfl, rfl⟩, .mount rfl hget, ?_⟩
  exact ⟨hmap _, hmap _, _, _, _, hget, fun _ _ => rfl, rfl⟩

/-- A directory made in the root has two links and no subdirectory. -/
theorem link_count_iff_mkdir :
    ∃ image s₀ hist s dir, mkfs rootEnv 1 eightZones (blankDevice (2 ^ 20)) = some image ∧
      s₀.Holds (aufsFillSb image.superBlock) image ∧
      Trace (VolumeStep .little (aufsFillSb image.superBlock)) s₀ hist s ∧
      s.space.dirs 2 = some dir ∧ dir.inode.iNlink = 2 + subdirs hist 2 := by
  have H := accepted_of_parseArgs eightZones_parsed
  obtain ⟨image, himage, hf, R⟩ := exists_image H rootEnv (blankDevice (2 ^ 20))
  obtain ⟨s₀, s₁, leftover, content, hstart, hmount, hs₁⟩ := Volume.exists_mount H R hf .little
  obtain ⟨r, s, hstep, hmade⟩ := mkdirOp_step ⟨H, R, eightZones_fit R⟩ hf hs₁
  cases hstep with
  | @call dir hdir _ hfresh _ hret =>
    have t : Trace (VolumeStep .little (aufsFillSb image.superBlock)) s₀ _ _ :=
      (Trace.single hmount).snoc (.call hdir hfresh hret)
    generalize s₁.space.call .little (aufsFillSb image.superBlock) dir mkdirOp = r at hmade t
    obtain ⟨made, hr, hino⟩ := exists_madeDir hmade
    have hdirs : (s₁.space.after mkdirOp r).dirs 2 = some made := by
      simp only [NameSpace.after, hr, hino, Function.update_self]
    refine ⟨image, s₀, _, _, made, himage, hstart, t, hdirs, ?_⟩
    refine ((link_count_iff eightZones_parsed himage rfl hstart t).1 2 made hdirs).mpr ?_
    rw [filled_snoc, R.rootInode]
    change 2 ∉ [1]
    decide

/-- The root of an image just mounted has one link. -/
theorem mounted_root_link_count :
    ∃ image s₀ hist s root, mkfs rootEnv 1 eightZones (blankDevice (2 ^ 20)) = some image ∧
      s₀.Holds (aufsFillSb image.superBlock) image ∧
      Trace (VolumeStep .little (aufsFillSb image.superBlock)) s₀ hist s ∧
      s.space.dirs 1 = some root ∧ sIsDir root.inode.iMode = true ∧ root.inode.iNlink = 1 ∧
      subdirs hist 1 = 0 ∧ root.inode.iNlink ≠ 2 + subdirs hist 1 := by
  have H := accepted_of_parseArgs eightZones_parsed
  obtain ⟨image, himage, hf, R⟩ := exists_image H rootEnv (blankDevice (2 ^ 20))
  obtain ⟨s₀, s, leftover, content, hstart, hmount, hs⟩ := Volume.exists_mount H R hf .little
  obtain ⟨root, content', -, hdirs, his, hnlink, -⟩ := hs.exists_root R H hf .little
  have hsub : subdirs [(.mount leftover content, none)] 1 = 0 := rfl
  refine ⟨image, s₀, _, s, ⟨root, content'⟩, himage, hstart, .single hmount, ?_, ?_, hnlink, hsub,
    ?_⟩
  · rw [hdirs]
    rfl
  · rw [his.mode]
    decide
  · rw [hnlink, hsub]
    decide

end Aufs
