import Aufs.Verify.NameSpace

/-! Walking paths. The VFS resolves a path one `minix_lookup` at a time. In every run the paths that
resolve are those of the tree, each to a number of its own; a call that creates a name adds its
path, and every other call and every other path changes nothing. -/

namespace Aufs
open Bytes Word

variable {order : ByteOrder} {config : Configuration} {sb : Sb}

/-- One component: `minix_lookup` in directory `d`. A negative entry ends the walk, as an error
does. -/
def NameSpace.lookup (order : ByteOrder) (env : DirEnv) (s : NameSpace) (d : Nat)
    (name : List Byte) : Option Nat := do
  let dir ← s.dirs d
  let ino ← (minixLookup order env dir.inode dir.content name).toOption
  if ino = 0 then none else some ino

/-- The path `names` from directory `d`; inodes that were made are still in memory. -/
def NameSpace.walk (order : ByteOrder) (env : DirEnv) (s : NameSpace) (d : Nat)
    (names : List (List Byte)) : Option Nat :=
  LabelPath.walk (s.lookup order env) d names

/-- A component that reaches the file system: the VFS does `.` and `..` itself. -/
structure Component (name : List Byte) : Prop where
  valid : ValidName name
  proper : ProperName name

/-- Directory `d` has `name` for `ino`. -/
def NameSpace.Edge (order : ByteOrder) (s : NameSpace) (d : Nat) (name : List Byte) (ino : Nat) :
    Prop :=
  ∃ k, s.Entry order d k name ino

/-- The entries of directory `d`. -/
def NameSpace.entries (order : ByteOrder) (s : NameSpace) (d : Nat) :
    Option (List (List Byte × Nat)) :=
  (s.dirs d).map fun dir => dirEntries order dir.inode dir.content

theorem NameSpace.edge_iff {s : NameSpace} : s.Edge order d name ino ↔
    ∃ es, s.entries order d = some es ∧ (name, ino) ∈ es ∧ ProperName name := by
  constructor
  · rintro ⟨k, dir, hdir, hget, hname⟩
    exact ⟨_, congrArg (Option.map _) hdir, List.mem_of_getElem? hget, hname⟩
  · rintro ⟨es, hes, hmem, hname⟩
    obtain ⟨dir, hdir, rfl⟩ := Option.map_eq_some_iff.mp hes
    obtain ⟨k, hk⟩ := List.mem_iff_getElem?.mp hmem
    exact ⟨k, dir, hdir, hk, hname⟩

/-! ## Looking up -/

/-- With all pages readable, a search gives the value of the name, or 0. -/
theorem DirState.Refines.inodeByName {dir : DirState} {m : DirMap} {env : DirEnv}
    (r : dir.Refines order m) (hread : ∀ n, env.readMappingPage n = .ok ())
    (hname : ValidName name) (hino : ino ≠ 0) :
    minixInodeByName order env dir.inode dir.content name = ino ↔ (name, ino) ∈ m.entries := by
  have hmem : ∀ g < dir.inode.iSize / AUFS_DIR_SIZE, slot order dir.content g ∈ m.entries := by
    intro g hg
    rw [← r.entries]
    exact mem_dirEntries.mpr ⟨g, hg, rfl⟩
  rcases minixInodeByName_spec env r.wellFormed hname with ⟨g, hg, hn, heq⟩ | ⟨heq, hnone⟩
  · have hg := hmem g hg
    rw [← Prod.mk.eta (p := slot order dir.content g), hn] at hg
    rw [heq]
    constructor
    · rintro rfl
      exact hg
    · exact m.value_unique hg
  · rw [heq]
    refine ⟨fun h => absurd h.symm hino, fun h => ?_⟩
    rcases hnone with hnone | ⟨n, e, he⟩
    · rw [← r.entries] at h
      obtain ⟨g, hg, hslot⟩ := mem_dirEntries.mp h
      exact absurd (congrArg Prod.fst hslot) (hnone g hg)
    · cases (hread n).symm.trans he

theorem NameSpace.Refines.lookup_iff {s : NameSpace} {t : NameTree} {env : DirEnv}
    (ref : s.Refines order t) (hread : ∀ n, env.readMappingPage n = .ok ())
    (hname : Component name) : s.lookup order env d name = some ino ↔ t.Edge d name ino := by
  have hlen : ¬name.length > AUFS_NAME_LEN := Nat.not_lt.mpr hname.valid.le
  simp only [lookup, minixLookup, if_neg hlen, Option.bind_eq_bind, Option.bind_eq_some_iff,
    Except.toOption, Option.some.injEq]
  constructor
  · rintro ⟨dir, hdir, _, rfl, h⟩
    obtain ⟨m, hm, -, -, -, r⟩ := ref.of_dir hdir
    split at h
    · cases h
    · next h0 =>
      cases h
      exact ⟨m, hm, (r.inodeByName hread hname.valid h0).mp rfl, hname.proper⟩
  · rintro ⟨m, hm, hmem, -⟩
    obtain ⟨dir, hdir, r⟩ := ref.of_map hm
    have h0 := r.nonzero _ hmem
    refine ⟨dir, hdir, _, rfl, ?_⟩
    rw [(r.inodeByName hread hname.valid h0).mpr hmem, if_neg h0]

/-! ## What a call does to the entries -/

section
variable (R : sb.Reads config) (H : config.Accepted) {dir : DirState} {m : DirMap} {env : NameiEnv}
include R H

/-- `minix_mknod` returns 0 exactly when it has appended an entry for a free number. -/
theorem minixMknod_entries (zmap imap : MapBlocks) (mode rdev : Nat) (pages : Mem)
    (wf : WellFormed order dir.inode dir.content) (hname : ValidName name)
    (hfresh : ∀ new ∈ env.new, ∃ leftover, new = newInode leftover)
    (hwrite : env.dir.writeOnePage = .ok ()) {r : NameiCall}
    (hr : minixMknod order sb env zmap imap dir.inode dir.content name mode rdev pages = r) :
    (r.ret ≠ some (.ok ()) ∧
      dirEntries order r.dir r.content = dirEntries order dir.inode dir.content) ∨
    ∃ inode, r.ret = some (.ok ()) ∧ r.inode = some (inode, pages) ∧
      bit (imap 0) inode.iIno = false ∧
      name ∉ (dirEntries order dir.inode dir.content).map Prod.fst ∧
      dirEntries order r.dir r.content =
        dirEntries order dir.inode dir.content ++ [(name, inode.iIno)] := by
  subst hr
  unfold minixMknod
  by_cases hdev : oldValidDev rdev = false
  · rw [if_pos hdev]
    exact .inl ⟨nofun, rfl⟩
  · rw [if_neg hdev]
    rcases hnew : aufsNewInode env.task sb imap env.new dir.inode mode with ⟨res, imap'⟩
    cases res with
    | error e => exact .inl ⟨nofun, rfl⟩
    | ok inode =>
      obtain ⟨-, h0, hlt, hclear, -⟩ := newInode_fresh R H hfresh hnew
      cases hset : minixSetInode inode with
      | error e =>
        simp only [hset]
        exact .inl ⟨nofun, trivial⟩
      | ok u =>
        simp only [hset]
        by_cases hret : (minixAddLink order sb env.dir zmap dir.inode dir.content name
            (markInodeDirty inode).iIno).ret = some (.ok ())
        · obtain ⟨hmem, -, happ⟩ := minixAddLink_ok wf hname hlt hret
          refine .inr ⟨markInodeDirty inode, hret, ?_, hclear, hmem, happ.entries⟩
          simp only [addNondir, hret]
        · obtain ⟨⟨ptr, hdir⟩, hcontent⟩ := minixAddLink_kept wf hname hlt hwrite hret
          have hsize : (minixAddLink order sb env.dir zmap dir.inode dir.content name
              inode.iIno).dir.iSize = dir.inode.iSize := by rw [hdir]
          exact .inl ⟨hret, dirEntries_congr hsize fun a _ => congrFun hcontent a⟩

end

/-- A call without a name to create, or that fails, leaves the entries alone. -/
structure NameSpace.Unlinked (order : ByteOrder) (dir : DirState) (op : NameiOp) (r : NameiCall) :
    Prop where
  fails : op.kind.name = none ∨ r.ret ≠ some (.ok ())
  made : madeDir op r = none
  entries : dirEntries order r.dir r.content = dirEntries order dir.inode dir.content

/-- A call that succeeds has given its name to the free number of its inode; a directory that it
made has two entries. -/
structure NameSpace.Links (order : ByteOrder) (dir : DirState) (imap : MapBlocks) (op : NameiOp)
    (r : NameiCall) (name : List Byte) (inode : AufsInode) (pages : Mem) : Prop where
  names : op.kind.name = some name
  ret : r.ret = some (.ok ())
  given : r.inode = some (inode, pages)
  clear : bit (imap 0) inode.iIno = false
  new : name ∉ (dirEntries order dir.inode dir.content).map Prod.fst
  entries : dirEntries order r.dir r.content =
    dirEntries order dir.inode dir.content ++ [(name, inode.iIno)]
  made : madeDir op r = none ∨ madeDir op r = some ⟨inode, pages⟩ ∧
    dirEntries order inode pages = (emptyDir inode.iIno dir.inode.iIno).entries

section
variable (R : sb.Reads config) (H : config.Accepted) {dir : DirState} {m : DirMap} {op : NameiOp}
  {s s' : NameSpace}
include R H

theorem NameSpace.call_unlinked_or_linked (s : NameSpace) (rdir : dir.Refines order m)
    (hname : ∀ name ∈ op.kind.name, ValidName name)
    (hfresh : ∀ new ∈ op.env.new, ∃ leftover, new = newInode leftover)
    (hwrite : op.env.dir.writeOnePage = .ok ()) (hdir : dir.inode.iIno < 2 ^ 32)
    (hdir0 : dir.inode.iIno ≠ 0) {r : NameiCall} (hr : s.call order sb dir op = r) :
    NameSpace.Unlinked order dir op r ∨
      ∃ name inode pages, NameSpace.Links order dir s.imap op r name inode pages := by
  obtain ⟨kind, d, env, pages⟩ := op
  cases kind with
  | create name mode =>
    rcases minixMknod_entries R H s.zmap s.imap mode 0 pages rdir.wellFormed (hname name rfl) hfresh
      hwrite hr with ⟨hret, he⟩ | ⟨inode, hret, hinode, hclear, hnew, he⟩
    · exact .inl ⟨.inr hret, rfl, he⟩
    · exact .inr ⟨name, inode, pages, rfl, hret, hinode, hclear, hnew, he, .inl rfl⟩
  | mknod name mode rdev =>
    rcases minixMknod_entries R H s.zmap s.imap mode rdev pages rdir.wellFormed (hname name rfl)
      hfresh hwrite hr with ⟨hret, he⟩ | ⟨inode, hret, hinode, hclear, hnew, he⟩
    · exact .inl ⟨.inr hret, rfl, he⟩
    · exact .inr ⟨name, inode, pages, rfl, hret, hinode, hclear, hnew, he, .inl rfl⟩
  | mkdir name mode =>
    have hmk := minixMkdir_refines R H s.zmap s.imap mode pages rdir (hname name rfl) hfresh hwrite
      hdir hdir0
    change minixMkdir order sb env s.zmap s.imap dir.inode dir.content name mode pages = r at hr
    rw [hr] at hmk
    rcases hmk with ⟨hkept, hret⟩ | ⟨inode, content, h, hlinked, hret, hinode, hmade⟩
    · refine .inl ⟨.inr hret, ?_, hkept.refines.entries.trans rdir.entries.symm⟩
      simp only [madeDir]
      split
      · contradiction
      · rfl
    · refine .inr ⟨name, inode, content, rfl, hret, hinode, hlinked.clear, ?_, ?_, .inr ⟨?_, ?_⟩⟩
      · rw [rdir.entries]
        exact h
      · rw [rdir.entries]
        exact hlinked.refines.entries
      · simp only [madeDir, hret, hinode]
      · exact hmade.entries
  | tmpfile mode =>
    have hkept : Kept order dir m s.imap
        (minixTmpfile sb env s.zmap s.imap dir.inode dir.content mode pages) :=
      minixTmpfile_refines R s.zmap s.imap mode pages rdir
    change minixTmpfile sb env s.zmap s.imap dir.inode dir.content mode pages = r at hr
    rw [hr] at hkept
    exact .inl ⟨.inl rfl, rfl, hkept.refines.entries.trans rdir.entries.symm⟩

end

/-! ## Runs -/

/-- The name space stands for a tree of names that the VFS has let through. -/
structure NameSpace.Stands (order : ByteOrder) (s : NameSpace) (t : NameTree) : Prop where
  refines : s.Refines order t
  tree : t.IsTree
  valid : ∀ d es, s.entries order d = some es → ∀ e ∈ es, ValidName e.1

namespace NameSpace.Stands

variable {s : NameSpace} {t : NameTree}

theorem component (h : s.Stands order t) (he : s.Edge order d name ino) : Component name := by
  obtain ⟨es, hes, hmem, hname⟩ := edge_iff.mp he
  exact ⟨h.valid d es hes _ hmem, hname⟩

/-- Exactly the paths of the tree resolve. -/
theorem walk_iff (h : s.Stands order t) {env : DirEnv}
    (hread : ∀ n, env.readMappingPage n = .ok ()) (hnames : ∀ name ∈ names, Component name) :
    s.walk order env 1 names = some ino ↔ LabelPath (s.Edge order) 1 names ino := by
  refine LabelPath.walk_eq_some_iff (fun hname => ?_) hnames
  rw [h.refines.lookup_iff hread hname, h.refines.edge_eq]
  rfl

theorem path_unique (h : s.Stands order t) (p : LabelPath (s.Edge order) 1 names ino)
    (p' : LabelPath (s.Edge order) 1 names' ino) : names = names' := by
  have hedge : t.Edge = s.Edge order := h.refines.edge_eq
  rw [← hedge] at p p'
  exact h.tree.path_unique p p'

/-- Every directory has a path. -/
theorem exists_path (h : s.Stands order t) (hdir : s.dirs d = some dir) :
    ∃ path, LabelPath (s.Edge order) 1 path d := by
  obtain ⟨m, hm, -⟩ := h.refines.of_dir hdir
  obtain ⟨path, p⟩ := h.tree.path hm
  have hedge : t.Edge = s.Edge order := h.refines.edge_eq
  rw [hedge] at p
  exact ⟨path, p⟩

end NameSpace.Stands

/-- What a call does to the names below the root. -/
structure NameSpace.Grown (order : ByteOrder) (s s' : NameSpace) (d : Nat) (name : List Byte)
    (ino : Nat) : Prop where
  component : Component name
  new : ∀ {v}, ¬s.Edge order d name v
  fresh : ∀ {u n}, ¬s.Edge order u n ino
  leaf : ∀ {n v}, ¬s.Edge order ino n v
  ne : d ≠ ino
  edge : ∀ {u n v}, s'.Edge order u n v ↔ s.Edge order u n v ∨ u = d ∧ n = name ∧ v = ino

section
variable {s s' : NameSpace} {t : NameTree} {dir : DirState} {op : NameiOp} {r : NameiCall}

/-- The directories after a call that has left the entries alone. -/
theorem NameSpace.Unlinked.after (h : Unlinked order dir op r) (hdir : s.dirs op.dir = some dir)
    (d : Nat) : (s.after op r).entries order d = s.entries order d := by
  simp only [NameSpace.entries, NameSpace.after, h.made, Function.update_apply]
  split
  · next hd =>
    subst hd
    rw [hdir]
    exact congrArg some h.entries
  · rfl

/-- The directories after a call that has given `name` to a number that no directory had. -/
theorem NameSpace.Links.after (h : Links order dir s.imap op r name inode pages)
    (hne : op.dir ≠ inode.iIno) (hnone : s.dirs inode.iIno = none) :
    (∀ d, d ≠ inode.iIno → (s.after op r).entries order d =
      if d = op.dir then some (dirEntries order dir.inode dir.content ++ [(name, inode.iIno)])
      else s.entries order d) ∧
    ((s.after op r).entries order inode.iIno = none ∨
      (s.after op r).entries order inode.iIno =
        some (emptyDir inode.iIno dir.inode.iIno).entries) := by
  constructor
  · intro d hd
    have hdirs : (s.after op r).dirs d = if d = op.dir then
        some { inode := r.dir, content := r.content } else s.dirs d := by
      rcases h.made with hmade | ⟨hmade, -⟩
      · simp only [NameSpace.after, hmade, Function.update_apply]
      · simp only [NameSpace.after, hmade, Function.update_apply, if_neg hd]
    rw [NameSpace.entries, hdirs]
    split
    · exact congrArg some h.entries
    · rfl
  · rcases h.made with hmade | ⟨hmade, hdots⟩
    · refine .inl ?_
      simp only [NameSpace.entries, NameSpace.after, hmade, Function.update_of_ne hne.symm, hnone]
      rfl
    · refine .inr ?_
      simp only [NameSpace.entries, NameSpace.after, hmade, Function.update_self]
      exact congrArg some hdots

theorem not_proper_of_dots (h : e ∈ (emptyDir d parent).entries) : ¬ProperName e.1 := by
  intro hname
  rcases List.mem_pair.mp h with rfl | rfl
  · exact hname.1 rfl
  · exact hname.2 rfl

/-- One entry more is one edge more. -/
theorem NameSpace.edge_grow (hes : s.entries order d = some es)
    (hnone : s.entries order ino = none) (hname : ProperName name)
    (hafter : ∀ u, u ≠ ino → s'.entries order u =
      if u = d then some (es ++ [(name, ino)]) else s.entries order u)
    (hself : ∀ n v, ¬s'.Edge order ino n v) :
    s'.Edge order u n v ↔ s.Edge order u n v ∨ u = d ∧ n = name ∧ v = ino := by
  have hne : d ≠ ino := by
    rintro rfl
    cases hes.symm.trans hnone
  by_cases hui : u = ino
  · subst hui
    refine ⟨fun he => absurd he (hself n v), ?_⟩
    rintro (he | ⟨heq, -⟩)
    · obtain ⟨es', hu, -⟩ := edge_iff.mp he
      cases hnone.symm.trans hu
    · exact absurd heq.symm hne
  · rw [edge_iff, edge_iff, hafter u hui]
    by_cases hud : u = d
    · subst hud
      rw [if_pos rfl, hes]
      constructor
      · rintro ⟨es', hes', hmem, hn⟩
        cases hes'
        rcases List.mem_append.mp hmem with hmem | hmem
        · exact .inl ⟨es, rfl, hmem, hn⟩
        · cases List.mem_singleton.mp hmem
          exact .inr ⟨rfl, rfl, rfl⟩
      · rintro (⟨es', hes', hmem, hn⟩ | ⟨-, rfl, rfl⟩)
        · cases hes'
          exact ⟨_, rfl, List.mem_append_left _ hmem, hn⟩
        · exact ⟨_, rfl, List.mem_append_right _ List.mem_cons_self, hname⟩
    · rw [if_neg hud]
      exact ⟨.inl, fun hor => hor.resolve_right fun heq => hud heq.1⟩

end

section
variable (R : sb.Reads config) (H : config.Accepted) {op : NameiOp} {r : NameiCall}
  {s s' : NameSpace} {t : NameTree}
include R H

theorem NameSpace.Stands.step (h : s.Stands order t) (hs : NameiStep order sb s op r s') :
    (∃ t', s'.Stands order t') ∧
      ((op.kind.name = none ∨ r.ret ≠ some (.ok ())) ∧
        (∀ u n v, s'.Edge order u n v ↔ s.Edge order u n v) ∨
      ∃ name inode pages, op.kind.name = some name ∧ r.ret = some (.ok ()) ∧
        r.inode = some (inode, pages) ∧ s.Grown order s' op.dir name inode.iIno) := by
  obtain ⟨t', hstep, ref'⟩ := hs.refines R H h.refines
  obtain ⟨T', -⟩ := h.tree.step hstep
  cases hs with
  | @call dir hdir hname hfresh hwrite =>
    obtain ⟨m, hm, hino, h0, hlt, rdir⟩ := h.refines.of_dir hdir
    have hes : s.entries order op.dir = some (dirEntries order dir.inode dir.content) :=
      congrArg (Option.map _) hdir
    generalize hr : s.call order sb dir op = r at ref' ⊢
    rcases call_unlinked_or_linked R H s rdir hname hfresh hwrite (hino ▸ hlt) (hino ▸ h0) hr with
      hkept | ⟨name, inode, pages, hlinks⟩
    · refine ⟨⟨t', ref', T', fun d es => ?_⟩, .inl ⟨hkept.fails, fun u n v => ?_⟩⟩
      · rw [hkept.after hdir]
        exact h.valid d es
      · rw [edge_iff, edge_iff, hkept.after hdir]
    · have hused : inode.iIno ∉ t.used := h.refines.not_used hlinks.clear
      have hne : op.dir ≠ inode.iIno := fun heq => hused (heq ▸ h.tree.dirUsed hm)
      have hnone : s.dirs inode.iIno = none := by
        cases hd : s.dirs inode.iIno with
        | none => rfl
        | some dir' =>
          obtain ⟨m', hm', -⟩ := h.refines.of_dir hd
          exact absurd (h.tree.dirUsed hm') hused
      have hnone' : s.entries order inode.iIno = none := congrArg (Option.map _) hnone
      obtain ⟨hafter, hself⟩ := hlinks.after hne hnone
      have hvalid : ValidName name := hname name hlinks.names
      have hproper : ProperName name := by
        refine h.tree.properName hm fun hk => hlinks.new ?_
        rw [rdir.entries]
        exact hk
      have hedge : t.Edge = s.Edge order := h.refines.edge_eq
      refine ⟨⟨t', ref', T', fun d es hd e he => ?_⟩, .inr ⟨name, inode, pages, hlinks.names,
        hlinks.ret, hlinks.given, ⟨hvalid, hproper⟩, fun he => ?_, fun he => ?_, fun he => ?_, hne,
        edge_grow hes hnone' hproper hafter fun n v he => ?_⟩⟩
      · by_cases hdi : d = inode.iIno
        · subst hdi
          rcases hself with hself | hself
          · cases hself.symm.trans hd
          · cases hself.symm.trans hd
            rcases List.mem_pair.mp he with rfl | rfl
            · exact validName_dot
            · exact validName_dotdot
        · rw [hafter d hdi] at hd
          split at hd
          · cases hd
            rcases List.mem_append.mp he with he | he
            · exact h.valid _ _ hes e he
            · cases List.mem_singleton.mp he
              exact hvalid
          · exact h.valid d es hd e he
      · obtain ⟨es, he, hmem, -⟩ := edge_iff.mp he
        cases hes.symm.trans he
        exact hlinks.new (List.mem_map_of_mem hmem)
      · rw [← hedge] at he
        exact hused (h.tree.child he).2
      · obtain ⟨es, he, -⟩ := edge_iff.mp he
        cases hnone'.symm.trans he
      · obtain ⟨es, hes', hmem, hn⟩ := edge_iff.mp he
        rcases hself with hself | hself
        · cases hself.symm.trans hes'
        · cases hself.symm.trans hes'
          exact not_proper_of_dots hmem hn

theorem NameSpace.Mounts.stands {image : Image} {env : MkfsEnv} (hf : image.Formatted config env)
    (hs : s.Mounts sb image) (order : ByteOrder) : ∃ t, s.Stands order t := by
  obtain ⟨t, ref, T⟩ := hs.refines R H hf
  obtain ⟨root, content, m, hdirs, -, -, hm, rdir⟩ := hs.exists_root R H hf order
  refine ⟨t, ref, T, fun d es hes e he => ?_⟩
  obtain ⟨dir, hdir, rfl⟩ := Option.map_eq_some_iff.mp hes
  simp only [hdirs] at hdir
  split at hdir
  · cases hdir
    rw [rdir.entries, hm] at he
    rcases List.mem_pair.mp he with rfl | rfl
    · exact validName_dot
    · exact validName_dotdot
  · cases hdir

theorem NameiStep.run_stands {s₀ : NameSpace} {t₀ : NameTree} (h₀ : s₀.Stands order t₀)
    (t : Trace (NameiStep order sb) s₀ hist s) : ∃ t, s.Stands order t := by
  induction t with
  | nil => exact ⟨t₀, h₀⟩
  | snoc _ hs ih =>
    obtain ⟨t, h⟩ := ih
    exact (h.step R H hs).1

end

section
variable {s s' : NameSpace} {t t' : NameTree} {env : DirEnv}
  (hread : ∀ n, env.readMappingPage n = .ok ())
include hread

theorem NameSpace.Stands.walk_same (h : s.Stands order t) (h' : s'.Stands order t')
    (hedge : ∀ u n v, s'.Edge order u n v ↔ s.Edge order u n v)
    (hnames : ∀ name ∈ names, Component name) :
    s'.walk order env 1 names = s.walk order env 1 names := by
  refine Option.ext fun v => ?_
  rw [h'.walk_iff hread hnames, h.walk_iff hread hnames]
  exact ⟨fun p => p.mono (hedge _ _ _).mp, fun p => p.mono (hedge _ _ _).mpr⟩

/-- Before the call the path of the new name did not resolve. -/
theorem NameSpace.Grown.walk_none (g : s.Grown order s' d name ino) (h : s.Stands order t)
    (hpath : ∀ name ∈ path, Component name) (p : LabelPath (s.Edge order) 1 path d) :
    s.walk order env 1 (path ++ [name]) = none := by
  have hlookup : s.lookup order env d name = none := by
    refine Option.eq_none_iff_forall_ne_some.mpr fun v hv => ?_
    rw [h.refines.lookup_iff hread g.component, h.refines.edge_eq] at hv
    exact g.new hv
  have hd : s.walk order env 1 path = some d := (h.walk_iff hread hpath).mpr p
  rw [walk] at hd
  rw [walk, LabelPath.walk_append, hd, Option.bind_some, LabelPath.walk, hlookup]
  rfl

/-- It adds this path and changes no other. -/
theorem NameSpace.Grown.walk (g : s.Grown order s' d name ino) (h : s.Stands order t)
    (h' : s'.Stands order t') (p : LabelPath (s.Edge order) 1 path d)
    (hnames : ∀ name ∈ names, Component name) :
    s'.walk order env 1 names =
      if names = path ++ [name] then some ino else s.walk order env 1 names := by
  have hpath : ∀ name ∈ path, Component name := p.labels h.component
  refine Option.ext fun v => ?_
  rw [h'.walk_iff hread hnames, LabelPath.grow_iff g.leaf g.ne g.edge]
  constructor
  · rintro (q | ⟨q, hq, rfl, rfl⟩)
    · have hw := (h.walk_iff hread hnames).mpr q
      have hne : names ≠ path ++ [name] := by
        rintro rfl
        cases (g.walk_none hread h hpath p).symm.trans hw
      rw [if_neg hne]
      exact hw
    · rw [h.path_unique hq p, if_pos rfl]
  · split
    · next heq =>
      rintro ⟨⟩
      exact .inr ⟨path, p, heq, rfl⟩
    · exact fun hw => .inl ((h.walk_iff hread hnames).mp hw)

end

/-- In every run from an image just mounted: the paths that resolve are those of the tree, and no
two resolve to one number. A call on the directory at `path` that succeeds makes `path` with its
name, which did not resolve, resolve to the number of its inode; a call without a name or that fails
changes nothing; and all other paths stay as they are. -/
theorem path_walk {deviceSize : String → Nat} {argv : List String} {menv : MkfsEnv} {fuel : Nat}
    {dev : Device} {image : Image} {hist : List (NameiOp × NameiCall)} {s₀ s : NameSpace}
    {env : DirEnv} (hargs : parseArgs deviceSize argv = .ok config)
    (himage : mkfs menv fuel config dev = some image) (hsb : sb = aufsFillSb image.superBlock)
    (hmount : s₀.Mounts sb image) (t : Trace (NameiStep order sb) s₀ hist s)
    (hread : ∀ n, env.readMappingPage n = .ok ()) :
    (∀ names ino, LabelPath (fun u name v => ∃ k, s.Entry order u k name v) sb.sbi.asbRootInode
        names ino ↔ (∀ name ∈ names, Component name) ∧
          s.walk order env sb.sbi.asbRootInode names = some ino) ∧
    (∀ names names' ino, (∀ name ∈ names, Component name) → (∀ name ∈ names', Component name) →
      s.walk order env sb.sbi.asbRootInode names = some ino →
      s.walk order env sb.sbi.asbRootInode names' = some ino → names = names') ∧
    ∀ op r s', NameiStep order sb s op r s' →
      ∃ path, (∀ name ∈ path, Component name) ∧
        s.walk order env sb.sbi.asbRootInode path = some op.dir ∧
        ((op.kind.name = none ∨ r.ret ≠ some (.ok ())) → ∀ names,
          (∀ name ∈ names, Component name) →
          s'.walk order env sb.sbi.asbRootInode names =
            s.walk order env sb.sbi.asbRootInode names) ∧
        ∀ name, op.kind.name = some name → r.ret = some (.ok ()) →
          ∃ inode pages, r.inode = some (inode, pages) ∧ Component name ∧
            s.walk order env sb.sbi.asbRootInode (path ++ [name]) = none ∧
            ∀ names, (∀ name ∈ names, Component name) →
              s'.walk order env sb.sbi.asbRootInode names =
                if names = path ++ [name] then some inode.iIno
                else s.walk order env sb.sbi.asbRootInode names := by
  have H := accepted_of_parseArgs hargs
  have hf := mkfs_formatted H himage
  have R : sb.Reads config := hsb ▸ aufsFillSb_reads H hf
  obtain ⟨t₀, h₀⟩ := hmount.stands R H hf order
  obtain ⟨tree, h⟩ := NameiStep.run_stands R H h₀ t
  rw [R.rootInode]
  refine ⟨fun names ino => ?_, fun names names' ino hn hn' hw hw' => ?_, fun op r s' hs => ?_⟩
  · constructor
    · intro p
      have hnames : ∀ name ∈ names, Component name := p.labels h.component
      exact ⟨hnames, (h.walk_iff hread hnames).mpr p⟩
    · rintro ⟨hnames, hw⟩
      exact (h.walk_iff hread hnames).mp hw
  · exact h.path_unique ((h.walk_iff hread hn).mp hw) ((h.walk_iff hread hn').mp hw')
  · obtain ⟨⟨tree', h'⟩, heffect⟩ := h.step R H hs
    obtain ⟨dir, hdir⟩ : ∃ dir, s.dirs op.dir = some dir := by
      cases hs with
      | call hdir => exact ⟨_, hdir⟩
    obtain ⟨path, p⟩ := h.exists_path hdir
    have hpath : ∀ name ∈ path, Component name := p.labels h.component
    refine ⟨path, hpath, (h.walk_iff hread hpath).mpr p, fun hfails names hnames => ?_,
      fun name hname hret => ?_⟩
    · rcases heffect with ⟨-, hedge⟩ | ⟨name, inode, pages, hname, hret, -⟩
      · exact h.walk_same hread h' hedge hnames
      · rcases hfails with hnone | hne
        · cases hnone.symm.trans hname
        · exact absurd hret hne
    · rcases heffect with ⟨hfails, -⟩ | ⟨name', inode, pages, hname', -, hinode, g⟩
      · rcases hfails with hnone | hne
        · cases hnone.symm.trans hname
        · exact absurd hret hne
      · cases hname'.symm.trans hname
        exact ⟨inode, pages, hinode, g.component, g.walk_none hread h hpath p,
          fun names hnames => g.walk hread h h' p hnames⟩

/-- The directory made in the root of an image just mounted is found under its name. -/
theorem path_walk_mkdir :
    ∃ image s₀ r s', mkfs rootEnv 1 eightZones (blankDevice (2 ^ 20)) = some image ∧
      s₀.Mounts (aufsFillSb image.superBlock) image ∧
      NameiStep .little (aufsFillSb image.superBlock) s₀ mkdirOp r s' ∧
      s₀.walk .little quietEnv (aufsFillSb image.superBlock).sbi.asbRootInode [ascii "a"] = none ∧
      s'.walk .little quietEnv (aufsFillSb image.superBlock).sbi.asbRootInode [ascii "a"] =
        some 2 := by
  have H := accepted_of_parseArgs eightZones_parsed
  obtain ⟨image, himage, hf, R⟩ := exists_image H rootEnv (blankDevice (2 ^ 20))
  obtain ⟨s₀, hmount⟩ := NameSpace.exists_mounts H R hf
  obtain ⟨r, s', hstep, hmade⟩ := mkdirOp_step ⟨H, R, eightZones_fit R⟩ hf hmount
  refine ⟨image, s₀, r, s', himage, hmount, hstep, ?_⟩
  have hread : ∀ n, quietEnv.readMappingPage n = .ok () := fun _ => rfl
  obtain ⟨-, hunique, hcalls⟩ := path_walk eightZones_parsed himage rfl hmount .nil hread
  obtain ⟨path, hpath, hroot, -, hlinks⟩ := hcalls mkdirOp r s' hstep
  have hnil : s₀.walk .little quietEnv (aufsFillSb image.superBlock).sbi.asbRootInode [] = some 1 :=
    congrArg some R.rootInode
  obtain rfl : path = [] := hunique path [] 1 hpath nofun hroot hnil
  obtain ⟨made, hmade', hino⟩ := exists_madeDir hmade
  obtain ⟨hret, hinode⟩ := madeDir_eq_some hmade'
  obtain ⟨inode, pages, hgiven, hname, hbefore, hafter⟩ := hlinks _ rfl hret
  cases hinode.symm.trans hgiven
  have hcomp : ∀ name ∈ [ascii "a"], Component name := by
    intro name hmem
    cases List.mem_singleton.mp hmem
    exact hname
  refine ⟨hbefore, ?_⟩
  rw [hafter [ascii "a"] hcomp, if_pos (List.nil_append _).symm, hino]

end Aufs
