import Aufs.Kern.Namei
import Aufs.Lib.PartialMap
import Aufs.Verify.NameTree

/-! Creating names keeps the name space a tree: every call of `minix_create`, `minix_mknod`,
`minix_mkdir` and `minix_tmpfile` is a step of `NameTree`. -/

namespace Aufs
open Bytes Word

variable {order : ByteOrder} {config : Configuration} {sb : Sb}

/-- The maps, and the directories reached so far by number. -/
structure NameSpace where
  zmap : MapBlocks
  imap : MapBlocks
  dirs : Nat → Option DirState

inductive NameiKind where
  | create (name : List Byte) (mode : Nat)
  | mknod (name : List Byte) (mode rdev : Nat)
  | mkdir (name : List Byte) (mode : Nat)
  | tmpfile (mode : Nat)

def NameiKind.name : NameiKind → Option (List Byte)
  | .create name _ | .mknod name _ _ | .mkdir name _ => some name
  | .tmpfile _ => none

/-- A call on directory `dir`; `pages` is what the page cache of the new inode starts from. -/
structure NameiOp where
  kind : NameiKind
  dir : Nat
  env : NameiEnv
  pages : Mem

def NameSpace.call (order : ByteOrder) (sb : Sb) (s : NameSpace) (dir : DirState) (op : NameiOp) :
    NameiCall :=
  match op.kind with
  | .create name mode =>
    minixCreate order sb op.env s.zmap s.imap dir.inode dir.content name mode op.pages
  | .mknod name mode rdev =>
    minixMknod order sb op.env s.zmap s.imap dir.inode dir.content name mode rdev op.pages
  | .mkdir name mode =>
    minixMkdir order sb op.env s.zmap s.imap dir.inode dir.content name mode op.pages
  | .tmpfile mode =>
    minixTmpfile sb op.env s.zmap s.imap dir.inode dir.content mode op.pages

/-- The directory that a successful `minix_mkdir` has made. -/
def madeDir (op : NameiOp) (r : NameiCall) : Option DirState :=
  match op.kind, r.ret, r.inode with
  | .mkdir _ _, some (.ok ()), some (inode, content) => some { inode, content }
  | _, _, _ => none

/-- The directories that a history has made. -/
def madeDirs (hist : List (NameiOp × NameiCall)) : List Nat :=
  hist.filterMap fun e => (madeDir e.1 e.2).map (·.inode.iIno)

theorem madeDir_eq_some {op : NameiOp} {r : NameiCall} {made : DirState}
    (h : madeDir op r = some made) :
    r.ret = some (.ok ()) ∧ r.inode = some (made.inode, made.content) := by
  unfold madeDir at h
  split at h
  · next hret hinode =>
    cases h
    exact ⟨hret, hinode⟩
  · cases h

theorem exists_madeDir {op : NameiOp} {r : NameiCall} {n : Nat} (h : madeDirs [(op, r)] = [n]) :
    ∃ made, madeDir op r = some made ∧ made.inode.iIno = n := by
  cases hmade : madeDir op r with
  | none => simp [madeDirs, hmade] at h
  | some made => exact ⟨made, rfl, by simpa [madeDirs, hmade] using h⟩

/-- The name space after a call. -/
def NameSpace.after (s : NameSpace) (op : NameiOp) (r : NameiCall) : NameSpace :=
  let dirs := Function.update s.dirs op.dir (some { inode := r.dir, content := r.content })
  { zmap := r.zmap
    imap := r.imap
    dirs :=
      match madeDir op r with
      | some made => Function.update dirs made.inode.iIno (some made)
      | none => dirs }

/-- A call that runs to its end: `minix_mknod` without an inode number to give follows a null
pointer. Page writes and zone allocations do not fail, and the directory stays within nine zones.
The VFS lets `minix_create` and `minix_mknod` make no directory, so the directories are the root and
those that `minix_mkdir` made. -/
inductive NameiStep (order : ByteOrder) (sb : Sb) :
    NameSpace → NameiOp → NameiCall → NameSpace → Prop
  | call {s op dir} : s.dirs op.dir = some dir →
    (∀ name ∈ op.kind.name, ValidName name) →
    (∀ new ∈ op.env.new, ∃ leftover, new = newInode leftover) →
    op.env.dir.writeOnePage = .ok () →
    (s.call order sb dir op).ret ≠ none →
    0 ∉ (s.call order sb dir op).newZones →
    (s.call order sb dir op).dir.iSize ≤ 9 * sb.sbi.asbZoneSize →
    NameiStep order sb s op (s.call order sb dir op) (s.after op (s.call order sb dir op))

/-- The image just mounted: mounting sets bit 0 of both maps and loads the root inode. -/
structure NameSpace.Mounts (sb : Sb) (image : Image) (s : NameSpace) : Prop where
  zmap : s.zmap = fun _ => minixSetBit 0 image.zoneMap
  imap : s.imap = fun _ => minixSetBit 0 image.inodeMap
  dirs : ∃ leftover inode content,
    aufsInodeGet leftover sb.sbi.asbRootInode (image.rootSlot sb) = .ok inode ∧
    (∀ a < inode.iSize, content a = image.rootContent a) ∧
    s.dirs = fun d => if d = sb.sbi.asbRootInode then some { inode, content } else none

/-- Slot `k` of directory `d` has the name `name`, other than `.` and `..`, for `ino`. -/
def NameSpace.Entry (order : ByteOrder) (s : NameSpace) (d k : Nat) (name : List Byte)
    (ino : Nat) : Prop :=
  ∃ dir, s.dirs d = some dir ∧ (dirEntries order dir.inode dir.content)[k]? = some (name, ino) ∧
    ProperName name

/-! ## What one call does -/

/-- The call has left the entries of the directory alone. -/
structure Kept (order : ByteOrder) (dir : DirState) (m : DirMap) (imap : MapBlocks)
    (r : NameiCall) : Prop where
  sameIno : r.dir.iIno = dir.inode.iIno
  refines : DirState.Refines order { inode := r.dir, content := r.content } m
  bits : ∀ k, bit (imap 0) k = true → bit (r.imap 0) k = true

/-- The call has given `name` to the inode number `ino`, which was free. -/
structure Linked (order : ByteOrder) (dir : DirState) (m : DirMap) (imap : MapBlocks)
    (r : NameiCall) (name : List Byte) (ino : Nat) (h : name ∉ m.keys) : Prop where
  sameIno : r.dir.iIno = dir.inode.iIno
  refines : DirState.Refines order { inode := r.dir, content := r.content } (m.append name ino h)
  pos : ino ≠ 0
  lt : ino < 2 ^ 32
  clear : bit (imap 0) ino = false
  bits : ∀ k, bit (r.imap 0) k = true ↔ k = ino ∨ bit (imap 0) k = true

section
variable {dir : DirState} {m : DirMap} {env : NameiEnv} {imap : MapBlocks}

theorem DirState.Refines.congr {dir' : DirState} (r : dir.Refines order m)
    (hsize : dir'.inode.iSize = dir.inode.iSize) (hcontent : dir'.content = dir.content) :
    dir'.Refines order m := by
  refine ⟨hsize.trans r.size, ?_, r.nonzero⟩
  rw [dirEntries_congr hsize fun a _ => congrFun hcontent a]
  exact r.entries

/-- Adding a link either leaves the entries or appends one. -/
theorem addLink_refines (sb : Sb) (zmap : MapBlocks) (dir' : AufsInode) (r : dir.Refines order m)
    (hname : ValidName name) (hino : ino < 2 ^ 32) (h0 : ino ≠ 0) {env : DirEnv}
    (hwrite : env.writeOnePage = .ok ()) (hsize : dir'.iSize = dir.inode.iSize) :
    ((minixAddLink order sb env zmap dir' dir.content name ino).ret ≠ some (.ok ()) ∧
      (minixAddLink order sb env zmap dir' dir.content name ino).dir.iIno = dir'.iIno ∧
      DirState.Refines order
        { inode := (minixAddLink order sb env zmap dir' dir.content name ino).dir
          content := (minixAddLink order sb env zmap dir' dir.content name ino).content } m) ∨
    (minixAddLink order sb env zmap dir' dir.content name ino).ret = some (.ok ()) ∧
      (minixAddLink order sb env zmap dir' dir.content name ino).dir.iIno = dir'.iIno ∧
      ∃ h : name ∉ m.keys, DirState.Refines order
        { inode := (minixAddLink order sb env zmap dir' dir.content name ino).dir
          content := (minixAddLink order sb env zmap dir' dir.content name ino).content }
        (m.append name ino h) := by
  have r' : DirState.Refines order { inode := dir', content := dir.content } m :=
    r.congr hsize rfl
  have wf := r'.wellFormed
  by_cases hret : (minixAddLink order sb env zmap dir' dir.content name ino).ret = some (.ok ())
  · obtain ⟨hmem, hi, happ⟩ := minixAddLink_ok wf hname hino hret
    have hkeys : name ∉ m.keys := by
      intro hk
      rw [OrderedMap.keys, ← r'.entries] at hk
      exact hmem hk
    refine .inr ⟨hret, hi, hkeys, .of_wellFormed (happ.wellFormed wf h0) ?_⟩
    exact happ.entries.trans (by rw [r'.entries]; rfl)
  · obtain ⟨⟨ptr, hdir⟩, hcontent⟩ := minixAddLink_kept wf hname hino hwrite hret
    refine .inl ⟨hret, by rw [hdir], r'.congr ?_ hcontent⟩
    rw [hdir]

/-- What `aufs_new_inode` gives to the creating calls. -/
theorem newInode_fresh (R : sb.Reads config) (H : config.Accepted) {dir' : AufsInode}
    (hfresh : ∀ new ∈ env.new, ∃ leftover, new = newInode leftover)
    (h : aufsNewInode env.task sb imap env.new dir' mode = (.ok inode, imap')) :
    inode.iSize = 0 ∧ inode.iIno ≠ 0 ∧ inode.iIno < 2 ^ 32 ∧ bit (imap 0) inode.iIno = false ∧
      ∀ k, bit (imap' 0) k = true ↔ k = inode.iIno ∨ bit (imap 0) k = true := by
  obtain ⟨n, j, hn, hj, h0, hclear, rfl, rfl⟩ := aufsNewInode_ok R.inodeMapBlocks h
  obtain ⟨leftover, rfl⟩ := hfresh n hn
  have hlt := R.bits_lt H
  refine ⟨initInode_iSize .., h0, ?_, hclear, fun k => ?_⟩
  · change j < 2 ^ 32
    omega
  · change bit (Function.update imap 0 _ 0) k = true ↔ k = j ∨ _
    rw [Function.update_self, minixSetBit, bit_setBit]
    by_cases hk : k = j
    · simp [hk]
    · simp [hk]

section
variable (R : sb.Reads config) (H : config.Accepted)
include R H

theorem minixMknod_refines (zmap imap : MapBlocks) (mode rdev : Nat) (pages : Mem)
    (r : dir.Refines order m)
    (hname : ValidName name) (hfresh : ∀ new ∈ env.new, ∃ leftover, new = newInode leftover)
    (hwrite : env.dir.writeOnePage = .ok ()) :
    Kept order dir m imap (minixMknod order sb env zmap imap dir.inode dir.content name mode rdev
      pages) ∨
    ∃ ino h, Linked order dir m imap
      (minixMknod order sb env zmap imap dir.inode dir.content name mode rdev pages)
      name ino h := by
  unfold minixMknod
  by_cases hdev : oldValidDev rdev = false
  · rw [if_pos hdev]
    exact .inl ⟨rfl, r, fun _ hk => hk⟩
  · rw [if_neg hdev]
    rcases hnew : aufsNewInode env.task sb imap env.new dir.inode mode with ⟨res, imap'⟩
    have hmono := fun k => aufsNewInode_mono (k := k) R.inodeMapBlocks hnew
    cases res with
    | error e => exact .inl ⟨rfl, r, hmono⟩
    | ok inode =>
      obtain ⟨-, h0, hlt, hclear, hbits⟩ := newInode_fresh R H hfresh hnew
      cases hset : minixSetInode inode with
      | error e =>
        simp only [hset]
        exact .inl ⟨rfl, r, hmono⟩
      | ok u =>
        simp only [hset]
        rcases addLink_refines sb zmap dir.inode r hname hlt h0 hwrite rfl with
          ⟨-, hi, r'⟩ | ⟨-, hi, h, r'⟩
        · exact .inl ⟨hi, r', hmono⟩
        · exact .inr ⟨inode.iIno, h, hi, r', h0, hlt, hclear, hbits⟩

omit H in
theorem minixTmpfile_refines (zmap imap : MapBlocks) (mode : Nat) (pages : Mem)
    (r : dir.Refines order m) :
    Kept order dir m imap (minixTmpfile sb env zmap imap dir.inode dir.content mode pages) := by
  unfold minixTmpfile
  rcases hnew : aufsNewInode env.task sb imap env.new dir.inode mode with ⟨res, imap'⟩
  have hmono := fun k => aufsNewInode_mono (k := k) R.inodeMapBlocks hnew
  cases res with
  | error e => exact ⟨rfl, r, hmono⟩
  | ok inode => exact ⟨rfl, r, hmono⟩

/-- A successful `minix_mkdir` has made a directory of two entries and linked it. -/
theorem minixMkdir_refines (zmap imap : MapBlocks) (mode : Nat) (pages : Mem)
    (r : dir.Refines order m) (hname : ValidName name)
    (hfresh : ∀ new ∈ env.new, ∃ leftover, new = newInode leftover)
    (hwrite : env.dir.writeOnePage = .ok ()) (hdir : dir.inode.iIno < 2 ^ 32)
    (hdir0 : dir.inode.iIno ≠ 0) :
    (Kept order dir m imap (minixMkdir order sb env zmap imap dir.inode dir.content name mode
        pages) ∧
      (minixMkdir order sb env zmap imap dir.inode dir.content name mode pages).ret ≠
        some (.ok ())) ∨
    ∃ inode content h,
      Linked order dir m imap
        (minixMkdir order sb env zmap imap dir.inode dir.content name mode pages) name inode.iIno
        h ∧
      (minixMkdir order sb env zmap imap dir.inode dir.content name mode pages).ret =
        some (.ok ()) ∧
      (minixMkdir order sb env zmap imap dir.inode dir.content name mode pages).inode =
        some (inode, content) ∧
      DirState.Refines order { inode, content } (emptyDir inode.iIno dir.inode.iIno) := by
  have hinc : (inodeIncLinkCount dir.inode).iSize = dir.inode.iSize := inodeIncLinkCount_iSize _
  have hdec : (inodeDecLinkCount (inodeIncLinkCount dir.inode)).iSize = dir.inode.iSize := by simp
  have hdecIno : (inodeDecLinkCount (inodeIncLinkCount dir.inode)).iIno = dir.inode.iIno := by simp
  simp only [minixMkdir]
  rcases hnew : aufsNewInode env.task sb imap env.new (inodeIncLinkCount dir.inode)
    (S_IFDIR ||| mode) with ⟨res, imap'⟩
  have hmono := fun k => aufsNewInode_mono (k := k) R.inodeMapBlocks hnew
  cases res with
  | error e => exact .inl ⟨⟨hdecIno, r.congr hdec rfl, hmono⟩, nofun⟩
  | ok inode =>
    obtain ⟨hsize, h0, hlt, hclear, hbits⟩ := newInode_fresh R H hfresh hnew
    rw [← inodeIncLinkCount_iSize] at hsize
    rw [← inodeIncLinkCount_iIno] at h0 hlt hclear hbits
    have hparent : (inodeIncLinkCount dir.inode).iIno < 2 ^ 32 := by
      rw [inodeIncLinkCount_iIno]
      exact hdir
    simp only
    generalize hmade : minixMakeEmpty order sb env.inode zmap (inodeIncLinkCount inode) pages
      (inodeIncLinkCount dir.inode).iIno = made
    by_cases hret : made.ret = some (.ok ())
    · rw [← hmade] at hret
      obtain ⟨hgrab, hread⟩ := minixMakeEmpty_ok hret
      have hspec := minixMakeEmpty_spec R H order hgrab hread hsize hlt hparent zmap pages
      rw [hmade] at hret hspec
      rw [inodeIncLinkCount_iIno dir.inode] at hspec
      obtain ⟨-, hmi, hms, hentries⟩ := hspec
      have hlink := addLink_refines sb made.zmap (inodeIncLinkCount dir.inode) r hname hlt h0 hwrite
        hinc
      simp only [hret]
      generalize minixAddLink order sb env.dir made.zmap (inodeIncLinkCount dir.inode) dir.content
        name (inodeIncLinkCount inode).iIno = link at hlink ⊢
      rw [inodeIncLinkCount_iIno dir.inode] at hlink
      rcases hlink with ⟨hne, hi, r'⟩ | ⟨hok, hi, h, r'⟩
      · refine .inl ⟨⟨?_, ?_, hmono⟩, hne⟩
        · split
          · exact hi
          · exact (inodeDecLinkCount_iIno _).trans hi
        · refine r'.congr ?_ rfl
          split
          · rfl
          · exact inodeDecLinkCount_iSize _
      · simp only [hok]
        rw [← hmi] at r' h0 hlt hclear hbits hentries
        refine .inr ⟨made.dir, made.content, h, ⟨hi, r', h0, hlt, hclear, hbits⟩, trivial, rfl, ?_⟩
        refine .of_wellFormed (wellFormed_iff.mpr ⟨?_, ?_⟩) hentries
        · rw [hms]
          rfl
        · rw [hentries]
          intro e he
          rcases List.mem_pair.mp he with rfl | rfl
          · exact h0
          · exact hdir0
    · refine .inl ?_
      rcases hmake : made.ret with _ | (e | u)
      · exact ⟨⟨hdecIno, r.congr hdec rfl, hmono⟩, nofun⟩
      · exact ⟨⟨hdecIno, r.congr hdec rfl, hmono⟩, nofun⟩
      · exact absurd hmake hret

end
end

/-! ## Runs -/

/-- The maps and directories in memory stand for the tree. -/
structure NameSpace.Refines (order : ByteOrder) (s : NameSpace) (t : NameTree) : Prop where
  used : ∀ ino, ino ∈ t.used ↔ bit (s.imap 0) ino = true
  dir : ∀ d, Option.Rel
    (fun dir m => dir.inode.iIno = d ∧ d ≠ 0 ∧ d < 2 ^ 32 ∧ DirState.Refines order dir m)
    (s.dirs d) (t.dir d)

namespace NameSpace.Refines

variable {s : NameSpace} {t : NameTree}

theorem of_dir {dir : DirState} (ref : s.Refines order t) (hdir : s.dirs d = some dir) :
    ∃ m, t.dir d = some m ∧ dir.inode.iIno = d ∧ d ≠ 0 ∧ d < 2 ^ 32 ∧
      DirState.Refines order dir m := by
  have hrel := ref.dir d
  rw [hdir] at hrel
  cases hm : t.dir d with
  | none =>
    rw [hm] at hrel
    cases hrel
  | some m =>
    rw [hm] at hrel
    cases hrel with
    | some h => exact ⟨m, rfl, h⟩

theorem of_map (ref : s.Refines order t) (hm : t.dir d = some m) :
    ∃ dir, s.dirs d = some dir ∧ DirState.Refines order dir m := by
  have hrel := ref.dir d
  rw [hm] at hrel
  cases hdir : s.dirs d with
  | none =>
    rw [hdir] at hrel
    cases hrel
  | some dir =>
    rw [hdir] at hrel
    cases hrel with
    | some h => exact ⟨dir, rfl, h.2.2.2⟩

theorem not_used (ref : s.Refines order t) (h : bit (s.imap 0) ino = false) : ino ∉ t.used := by
  intro hused
  cases h.symm.trans ((ref.used ino).mp hused)

theorem used_insert (ref : s.Refines order t) {imap : MapBlocks}
    (h : ∀ k, bit (imap 0) k = true ↔ k = ino ∨ bit (s.imap 0) k = true) (k : Nat) :
    k ∈ insert ino t.used ↔ bit (imap 0) k = true := by
  rw [Set.mem_insert_iff, h, ref.used]

end NameSpace.Refines

section
variable (R : sb.Reads config) (H : config.Accepted) {s s' : NameSpace} {t : NameTree}
  {dir : DirState} {m : DirMap} {op : NameiOp}
include R H

/-- The four calls together. -/
theorem NameSpace.call_cases (s : NameSpace) (r : dir.Refines order m)
    (hname : ∀ name ∈ op.kind.name, ValidName name)
    (hfresh : ∀ new ∈ op.env.new, ∃ leftover, new = newInode leftover)
    (hwrite : op.env.dir.writeOnePage = .ok ()) (hdir : dir.inode.iIno < 2 ^ 32)
    (hdir0 : dir.inode.iIno ≠ 0) :
    (Kept order dir m s.imap (s.call order sb dir op) ∧
      madeDir op (s.call order sb dir op) = none) ∨
    (∃ name ino h, Linked order dir m s.imap (s.call order sb dir op) name ino h ∧
      madeDir op (s.call order sb dir op) = none) ∨
    ∃ name made h, Linked order dir m s.imap (s.call order sb dir op) name made.inode.iIno h ∧
      madeDir op (s.call order sb dir op) = some made ∧
      made.Refines order (emptyDir made.inode.iIno dir.inode.iIno) := by
  obtain ⟨kind, d, env, pages⟩ := op
  cases kind with
  | create name mode =>
    rcases minixMknod_refines R H s.zmap s.imap mode 0 pages r (hname name rfl) hfresh hwrite with
      hkept | ⟨ino, h, hlinked⟩
    · exact .inl ⟨hkept, rfl⟩
    · exact .inr (.inl ⟨name, ino, h, hlinked, rfl⟩)
  | mknod name mode rdev =>
    rcases minixMknod_refines R H s.zmap s.imap mode rdev pages r (hname name rfl) hfresh hwrite
      with hkept | ⟨ino, h, hlinked⟩
    · exact .inl ⟨hkept, rfl⟩
    · exact .inr (.inl ⟨name, ino, h, hlinked, rfl⟩)
  | mkdir name mode =>
    rcases minixMkdir_refines R H s.zmap s.imap mode pages r (hname name rfl) hfresh hwrite hdir
      hdir0 with
      ⟨hkept, hret⟩ | ⟨inode, content, h, hlinked, hret, hinode, hmade⟩
    · refine .inl ⟨hkept, ?_⟩
      simp only [madeDir]
      split
      · contradiction
      · rfl
    · refine .inr (.inr ⟨name, ⟨inode, content⟩, h, hlinked, ?_, hmade⟩)
      simp only [madeDir, NameSpace.call, hret, hinode]
  | tmpfile mode => exact .inl ⟨minixTmpfile_refines R s.zmap s.imap mode pages r, rfl⟩

/-- Every call is a step of the tree. -/
theorem NameiStep.refines (ref : s.Refines order t) (hs : NameiStep order sb s op r s') :
    ∃ t', NameTree.Step t ((madeDir op r).map (·.inode.iIno)) t' ∧ s'.Refines order t' := by
  cases hs with
  | @call dir hdir hname hfresh hwrite =>
    obtain ⟨m, hm, hino, h0, hlt, rdir⟩ := ref.of_dir hdir
    rcases NameSpace.call_cases R H s rdir hname hfresh hwrite (hino ▸ hlt) (hino ▸ h0) with
      ⟨hkept, hmade⟩ | ⟨name, ino, h, hlinked, hmade⟩ | ⟨name, made, h, hlinked, hmade, rmade⟩
    · refine ⟨{ t with used := {k | bit ((s.call order sb dir op).imap 0) k = true} }, ?_, ?_, ?_⟩
      · rw [hmade]
        exact .lose fun k hk => hkept.bits k ((ref.used k).mp hk)
      · rw [NameSpace.after, hmade]
        exact fun _ => Iff.rfl
      · rw [NameSpace.after, hmade]
        have hself : Function.update t.dir op.dir (some m) = t.dir := by
          rw [← hm, Function.update_eq_self]
        intro d
        have hrel :=
          PartialMap.rel_update ref.dir ⟨hkept.sameIno.trans hino, h0, hlt, hkept.refines⟩ d
        rwa [hself] at hrel
    · refine ⟨t.link op.dir m name ino h, ?_, ?_, ?_⟩
      · rw [hmade]
        exact .link h hm (ref.not_used hlinked.clear)
      · rw [NameSpace.after, hmade]
        exact ref.used_insert hlinked.bits
      · rw [NameSpace.after, hmade]
        exact PartialMap.rel_update ref.dir ⟨hlinked.sameIno.trans hino, h0, hlt, hlinked.refines⟩
    · refine ⟨(t.link op.dir m name made.inode.iIno h).addDir made.inode.iIno op.dir, ?_, ?_, ?_⟩
      · rw [hmade]
        exact .mkdir h hm (ref.not_used hlinked.clear)
      · rw [NameSpace.after, hmade]
        exact ref.used_insert hlinked.bits
      · rw [NameSpace.after, hmade]
        have hlink :=
          PartialMap.rel_update ref.dir ⟨hlinked.sameIno.trans hino, h0, hlt, hlinked.refines⟩
        rw [hino] at rmade
        exact PartialMap.rel_update hlink ⟨rfl, hlinked.pos, hlinked.lt, rmade⟩

/-- The only directory of an image just mounted is the root, with one link and its two dots. -/
theorem NameSpace.Mounts.exists_root {image : Image} {env : MkfsEnv}
    (hf : image.Formatted config env) (hs : s.Mounts sb image) (order : ByteOrder) :
    ∃ (root : AufsInode) (content : Mem) (m : DirMap),
      s.dirs = (fun d => if d = 1 then some ⟨root, content⟩ else none) ∧
      IsRoot config root ∧ root.iNlink = 1 ∧
      m.entries = [(ascii ".", rawOne order), (ascii "..", rawOne order)] ∧
      DirState.Refines order ⟨root, content⟩ m := by
  obtain ⟨leftover, inode, content, hget, hcontent, hdirs⟩ := hs.dirs
  obtain ⟨root, hroot, his⟩ := aufsInodeGet_root H R hf leftover
  obtain rfl : root = inode := Except.ok.inj (hroot.symm.trans hget)
  have hstart : DirStart order sb image [(ascii ".", rawOne order), (ascii "..", rawOne order)]
      ⟨root, content⟩ := .root hget hcontent
  obtain ⟨m, hm, r⟩ := hstart.refines R H hf
  refine ⟨root, content, m, ?_, his, ?_, hm, r⟩
  · rw [hdirs, R.rootInode]
  · rw [aufsInodeGet_ok hget]
    rfl

/-- The tree of an image just mounted has no names. -/
theorem NameSpace.Mounts.refines {image : Image} {env : MkfsEnv} (hf : image.Formatted config env)
    (hs : s.Mounts sb image) : ∃ t, s.Refines order t ∧ t.IsTree := by
  obtain ⟨root, content, m, hdirs, his, -, hm, r⟩ := hs.exists_root R H hf order
  have hbit : ∀ k < 2, bit (s.imap 0) k = true := by
    intro k hk
    have hbs := H.blockSize_cases
    have hmap := hf.inodeMap k (by omega)
    rw [hs.imap, minixSetBit, bit_setBit]
    cases hb : bit image.inodeMap k with
    | true => exact ite_self true
    | false =>
      have := hmap.mp hb
      omega
  have hdots : ∀ {d m'}, (if d = 1 then some m else none) = some m' → d = 1 ∧ m' = m := by
    intro d m' h
    split at h
    · exact ⟨‹_›, (Option.some.inj h).symm⟩
    · cases h
  refine ⟨{ used := {k | bit (s.imap 0) k = true}, dir := fun d => if d = 1 then some m else none },
    ⟨fun _ => Iff.rfl, fun d => ?_⟩, ?_⟩
  · rw [hdirs]
    by_cases hd : d = 1
    · simp only [if_pos hd]
      exact .some ⟨hd ▸ his.ino, by omega, by omega, r⟩
    · simp only [if_neg hd]
      exact .none
  · have hedge : ∀ {d name ino}, ¬NameTree.Edge
        { used := {k | bit (s.imap 0) k = true}, dir := fun d => if d = 1 then some m else none }
        d name ino := by
      rintro d name ino ⟨m', hm', hmem, hname⟩
      obtain ⟨-, rfl⟩ := hdots hm'
      rw [hm] at hmem
      rcases List.mem_pair.mp hmem with heq | heq
      · exact hname.1 (congrArg Prod.fst heq)
      · exact hname.2 (congrArg Prod.fst heq)
    constructor
    case low => exact hbit
    case dirUsed =>
      intro d m' h
      exact hbit d (by have := (hdots h).1; omega)
    case dots =>
      intro d m' h
      obtain ⟨-, rfl⟩ := hdots h
      rw [OrderedMap.keys, hm]
      exact ⟨List.mem_cons_self, List.mem_cons_of_mem _ List.mem_cons_self⟩
    case child => exact fun he => absurd he hedge
    case once => exact fun he => absurd he hedge
    case self => exact fun h1 h => absurd (hdots h).1 h1
    case parent => exact fun h1 h => absurd (hdots h).1 h1
    case path =>
      intro d m' h
      obtain ⟨rfl, -⟩ := hdots h
      exact ⟨[], .root⟩

/-- Every run is a run of the tree. -/
theorem NameiStep.run_refines {s₀ : NameSpace} {t₀ : NameTree} (ref₀ : s₀.Refines order t₀)
    (T₀ : t₀.IsTree) (t : Trace (NameiStep order sb) s₀ hist s) :
    ∃ t : NameTree, s.Refines order t ∧ t.IsTree ∧
      ∀ d ∈ madeDirs hist, d ≠ 1 ∧ (t.dir d).isSome := by
  induction t with
  | nil => exact ⟨t₀, ref₀, T₀, nofun⟩
  | @snoc hist s op r s' _ hs ih =>
    obtain ⟨t, ref, T, hmade⟩ := ih
    obtain ⟨t', hstep, ref'⟩ := hs.refines R H ref
    obtain ⟨T', hkept, hnew⟩ := T.step hstep
    refine ⟨t', ref', T', fun d hd => ?_⟩
    rw [madeDirs, List.filterMap_append, List.mem_append] at hd
    rcases hd with hd | hd
    · exact ⟨(hmade d hd).1, hkept d (hmade d hd).2⟩
    · refine hnew d ?_
      obtain ⟨e, he, hd⟩ := List.mem_filterMap.mp hd
      cases List.mem_singleton.mp he
      exact hd

end

section
variable {s : NameSpace} {t : NameTree}

theorem NameSpace.Refines.entry_iff (ref : s.Refines order t) :
    s.Entry order d k name ino ↔
      (∃ m, t.dir d = some m ∧ m.entries[k]? = some (name, ino)) ∧ ProperName name := by
  constructor
  · rintro ⟨dir, hdir, hget, hname⟩
    obtain ⟨m, hm, -, -, -, r⟩ := ref.of_dir hdir
    exact ⟨⟨m, hm, r.entries ▸ hget⟩, hname⟩
  · rintro ⟨⟨m, hm, hget⟩, hname⟩
    obtain ⟨dir, hdir, r⟩ := ref.of_map hm
    exact ⟨dir, hdir, r.entries ▸ hget, hname⟩

theorem NameSpace.Refines.edge_eq (ref : s.Refines order t) :
    t.Edge = fun d name ino => ∃ k, s.Entry order d k name ino := by
  funext d name ino
  refine propext ⟨?_, ?_⟩
  · rintro ⟨m, hm, hmem, hname⟩
    obtain ⟨k, hk⟩ := List.mem_iff_getElem?.mp hmem
    exact ⟨k, ref.entry_iff.mpr ⟨⟨m, hm, hk⟩, hname⟩⟩
  · rintro ⟨k, he⟩
    obtain ⟨⟨m, hm, hk⟩, hname⟩ := ref.entry_iff.mp he
    exact ⟨m, hm, List.mem_iff_getElem?.mpr ⟨k, hk⟩, hname⟩

end

/-- In every run from an image just mounted, an entry other than `.` and `..` names a number of at
least 2 whose bit is set and that no other such entry names; and every directory that was made has
one path from the root, its `.` is its own number, and its `..` that of the one directory that names
it. -/
theorem name_space_tree {deviceSize : String → Nat} {argv : List String} {env : MkfsEnv}
    {fuel : Nat} {dev : Device} {image : Image} {hist : List (NameiOp × NameiCall)}
    {s₀ s : NameSpace} (hargs : parseArgs deviceSize argv = .ok config)
    (himage : mkfs env fuel config dev = some image)
    (hsb : sb = aufsFillSb image.superBlock) (hmount : s₀.Mounts sb image)
    (t : Trace (NameiStep order sb) s₀ hist s) :
    (∀ d k name ino, s.Entry order d k name ino →
      bit (s.imap 0) ino = true ∧ 2 ≤ ino ∧
      ∀ d' k' name', s.Entry order d' k' name' ino → d' = d ∧ k' = k) ∧
    ∀ d ∈ madeDirs hist,
      (∃! names, LabelPath (fun u name v => ∃ k, s.Entry order u k name v) sb.sbi.asbRootInode
        names d) ∧
      ∃ dir parent, s.dirs d = some dir ∧
        (∀ ino, (ascii ".", ino) ∈ dirEntries order dir.inode dir.content ↔ ino = d) ∧
        (∀ ino, (ascii "..", ino) ∈ dirEntries order dir.inode dir.content ↔ ino = parent) ∧
        ∀ u, (∃ k name, s.Entry order u k name d) ↔ u = parent := by
  have H := accepted_of_parseArgs hargs
  have hf := mkfs_formatted H himage
  have R : sb.Reads config := hsb ▸ aufsFillSb_reads H hf
  obtain ⟨t₀, ref₀, T₀⟩ := hmount.refines R H hf
  obtain ⟨t, ref, T, hmade⟩ := NameiStep.run_refines R H ref₀ T₀ t
  have hedge := ref.edge_eq
  have hentry : ∀ {d k name ino}, s.Entry order d k name ino → t.Edge d name ino := by
    intro d k name ino he
    rw [hedge]
    exact ⟨k, he⟩
  refine ⟨fun d k name ino he => ?_, fun d hd => ?_⟩
  · obtain ⟨h2, hused⟩ := T.child (hentry he)
    refine ⟨(ref.used ino).mp hused, h2, fun d' k' name' he' => ?_⟩
    obtain ⟨rfl, rfl⟩ := T.once (hentry he) (hentry he')
    obtain ⟨⟨m, hm, hk⟩, -⟩ := ref.entry_iff.mp he
    obtain ⟨⟨m', hm', hk'⟩, -⟩ := ref.entry_iff.mp he'
    obtain rfl : m = m' := Option.some.inj (hm.symm.trans hm')
    exact ⟨rfl, OrderedMap.index_unique hk' hk⟩
  · obtain ⟨h1, hsome⟩ := hmade d hd
    obtain ⟨m, hm⟩ := Option.isSome_iff_exists.mp hsome
    obtain ⟨dir, hdir, r⟩ := ref.of_map hm
    obtain ⟨names, p⟩ := T.path hm
    obtain ⟨parent, name, he⟩ : ∃ parent name, t.Edge parent name d := by
      cases p with
      | root => exact absurd rfl h1
      | snoc _ he => exact ⟨_, _, he⟩
    have hparent : ∀ {u}, (∃ name, t.Edge u name d) ↔ u = parent := by
      intro u
      constructor
      · rintro ⟨name', he'⟩
        exact (T.once he' he).1
      · rintro rfl
        exact ⟨name, he⟩
    rw [R.rootInode, ← hedge]
    refine ⟨⟨names, p, fun names' p' => T.path_unique p' p⟩, dir, parent, hdir, ?_, ?_, ?_⟩
    · rw [r.entries]
      exact fun ino => T.self h1 hm
    · rw [r.entries]
      exact fun ino => (T.parent h1 hm).trans hparent
    · intro u
      rw [← hparent, hedge, exists_comm]

/-- A call of `minix_mkdir` on the root directory during which nothing fails. -/
def mkdirOp : NameiOp where
  kind := .mkdir (ascii "a") 0
  dir := 1
  env :=
    { task := ⟨0, 0, 0⟩, new := some (newInode fun _ => 0), dir := quietEnv, inode := quietEnv }
  pages := fun _ => 0

/-- A directory inode as `minix_mkdir` makes it: the number from the map, no bytes, no zones. -/
theorem inodeIncLinkCount_initInode (task : Task) (dir : AufsInode) (mode j : Nat) :
    (inodeIncLinkCount (initInode task (newInode fun _ => 0) dir mode j)).iIno = j ∧
      (inodeIncLinkCount (initInode task (newInode fun _ => 0) dir mode j)).iSize = 0 ∧
      ∀ i, (inodeIncLinkCount (initInode task (newInode fun _ => 0) dir mode j)).aiZonePtr i =
        0 := by
  refine ⟨?_, ?_, ?_⟩
  · rw [inodeIncLinkCount_iIno]
    rfl
  · rw [inodeIncLinkCount_iSize]
    exact initInode_iSize ..
  · rw [inodeIncLinkCount_aiZonePtr]
    exact fun _ => rfl

section
variable (M : Mounted config sb)
include M

/-- The first directory that is made after mounting takes zone 2. -/
theorem minixMakeEmpty_zone_mounted {image : Image} {env : MkfsEnv}
    (hf : image.Formatted config env) {inode : AufsInode} (hptr : ∀ i, inode.aiZonePtr i = 0)
    (content : Mem) (parent : Nat) :
    (minixMakeEmpty order sb quietEnv (fun _ => minixSetBit 0 image.zoneMap) inode content
      parent).newZone = some ((sb.zoneStart config 2 : Nat) : Int) := by
  have H := M.accepted
  have R := M.reads
  have hfit := M.zoneStart_lt (show 2 < config.numZones by have := H.three_lt; omega)
  rw [minixMakeEmpty_newZone rfl, minixPrepareChunk_newZone, Nat.zero_div,
    R.getBlock_unmapped H (firstBlock_idx config) (hptr _), R.newZone_mounted H hf,
    R.zoneBlock_of_lt H (by decide) (Nat.lt_of_le_of_lt (Nat.le_add_right ..) hfit)]
  rfl

/-- A directory made in the root of an image just mounted is inode 2. -/
theorem mkdirOp_step {image : Image} {env : MkfsEnv} (hf : image.Formatted config env)
    {s : NameSpace} (hs : s.Mounts sb image) :
    ∃ r s', NameiStep order sb s mkdirOp r s' ∧ madeDirs [(mkdirOp, r)] = [2] := by
  have H := M.accepted
  have R := M.reads
  obtain ⟨root, content, m, hdirs, his, -, hm, r⟩ := hs.exists_root R H hf order
  have hdir : s.dirs 1 = some ⟨root, content⟩ := by
    rw [hdirs]
    rfl
  have hname : ValidName (ascii "a") := ⟨by decide, by decide, by decide⟩
  have hkey : ascii "a" ∉ m.keys := by
    rw [OrderedMap.keys, hm]
    change ascii "a" ∉ [ascii ".", ascii ".."]
    decide
  -- the new inode is number 2
  have hnew := R.newInode_mounted H hf ⟨0, 0, 0⟩ (newInode fun _ => 0) (inodeIncLinkCount root)
    (S_IFDIR ||| 0)
  rw [← hs.imap] at hnew
  generalize hinode : initInode ⟨0, 0, 0⟩ (newInode fun _ => 0) (inodeIncLinkCount root)
    (S_IFDIR ||| 0) 2 = inode at hnew
  obtain ⟨hino, hsize, hptr⟩ := inodeIncLinkCount_initInode ⟨0, 0, 0⟩ (inodeIncLinkCount root)
    (S_IFDIR ||| 0) 2
  rw [hinode] at hino hsize hptr
  have hlt : (inodeIncLinkCount inode).iIno < 2 ^ 32 := by
    rw [hino]
    decide
  have hparent : (inodeIncLinkCount root).iIno < 2 ^ 32 := by
    rw [inodeIncLinkCount_iIno, his.ino]
    decide
  have hgrab : quietEnv.grabCachePage = .ok () := rfl
  have hread : quietEnv.blockRead = .ok () := rfl
  have hmade := minixMakeEmpty_spec R H order hgrab hread hsize hlt hparent s.zmap (fun _ => 0)
  have hmzone : (minixMakeEmpty order sb quietEnv s.zmap (inodeIncLinkCount inode) (fun _ => 0)
      (inodeIncLinkCount root).iIno).newZone = some ((sb.zoneStart config 2 : Nat) : Int) := by
    rw [hs.zmap]
    exact minixMakeEmpty_zone_mounted M hf hptr ..
  generalize hm' : minixMakeEmpty order sb quietEnv s.zmap (inodeIncLinkCount inode) (fun _ => 0)
    (inodeIncLinkCount root).iIno = made at hmade hmzone
  have hmret : made.ret = some (.ok ()) := hmade.1
  have hmino : made.dir.iIno = 2 := hmade.2.1.trans hino
  -- it goes into the zone that the root directory has
  have r' : DirState.Refines order ⟨inodeIncLinkCount root, content⟩ m :=
    r.congr (inodeIncLinkCount_iSize _) rfl
  have hrptr : (inodeIncLinkCount root).aiZonePtr ⟨_, firstBlock_idx config⟩ ≠ 0 := by
    rw [inodeIncLinkCount_aiZonePtr, his.zone, if_pos (Nat.zero_div _), H.rootBlock_eq]
    exact Nat.succ_ne_zero _
  obtain ⟨hret, hzone, hlsize⟩ := minixAddLink_third M r'
    ((inodeIncLinkCount_iSize _).trans his.size) hrptr hname hkey hlt made.zmap
  obtain ⟨dir, content', zmap, imap, hcall, hdsize⟩ : ∃ dir content' zmap imap,
      s.call order sb ⟨root, content⟩ mkdirOp =
        { ret := some (.ok ()), dir, content := content', zmap, imap
          inode := some (made.dir, made.content)
          newZones := [((sb.zoneStart config 2 : Nat) : Int)] } ∧
      dir.iSize = 3 * AUFS_DIR_SIZE := by
    simp only [NameSpace.call, mkdirOp, minixMkdir, hnew, hm', hmret, hret, hmzone, hzone]
    exact ⟨_, _, _, _, rfl, hlsize⟩
  refine ⟨_, _, .call hdir ?_ ?_ rfl ?_ ?_ ?_, ?_⟩
  · rintro _ ⟨⟩
    exact hname
  · rintro _ ⟨⟩
    exact ⟨_, rfl⟩
  · rw [hcall]
    exact Option.some_ne_none _
  · have hge := M.zoneStart_ge (Nat.le_refl 2)
    rw [hcall]
    simp only [List.mem_singleton]
    omega
  · have := H.zoneSize_ge
    rw [hcall, hdsize, R.zoneSize, AUFS_DIR_SIZE]
    omega
  · rw [hcall]
    change [made.dir.iIno] = [2]
    rw [hmino]

end

theorem NameSpace.exists_mounts {config : Configuration} {sb : Sb} {image : Image}
    {env : MkfsEnv} (H : config.Accepted) (R : sb.Reads config) (hf : image.Formatted config env) :
    ∃ s₀ : NameSpace, s₀.Mounts sb image := by
  obtain ⟨root, hget, -⟩ := aufsInodeGet_root H R hf (fun _ => 0)
  let s₀ : NameSpace :=
    { zmap := fun _ => minixSetBit 0 image.zoneMap
      imap := fun _ => minixSetBit 0 image.inodeMap
      dirs := fun d => if d = sb.sbi.asbRootInode then some ⟨root, image.rootContent⟩ else none }
  exact ⟨s₀, rfl, rfl, _, _, _, hget, fun _ _ => rfl, rfl⟩

/-- A directory made in the root has one path. -/
theorem name_space_tree_mkdir :
    ∃ image s₀ r s, mkfs rootEnv 1 eightZones (blankDevice (2 ^ 20)) = some image ∧
      s₀.Mounts (aufsFillSb image.superBlock) image ∧
      Trace (NameiStep .little (aufsFillSb image.superBlock)) s₀ [(mkdirOp, r)] s ∧
      ∃! names, LabelPath (fun u name v => ∃ k, s.Entry .little u k name v)
        (aufsFillSb image.superBlock).sbi.asbRootInode names 2 := by
  have H := accepted_of_parseArgs eightZones_parsed
  obtain ⟨image, himage, hf, R⟩ := exists_image H rootEnv (blankDevice (2 ^ 20))
  obtain ⟨s₀, hmount⟩ := NameSpace.exists_mounts H R hf
  obtain ⟨r, s, hstep, hmade⟩ := mkdirOp_step ⟨H, R, eightZones_fit R⟩ hf hmount
  refine ⟨image, s₀, r, s, himage, hmount, .single hstep, ?_⟩
  refine ((name_space_tree eightZones_parsed himage rfl hmount (.single hstep)).2 2 ?_).1
  rw [hmade]
  exact List.mem_cons_self

end Aufs
