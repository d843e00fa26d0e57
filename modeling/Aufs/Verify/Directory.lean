import Aufs.Lib.OrderedMap
import Aufs.Lib.Trace
import Aufs.Verify.Entries
import Aufs.Verify.Layout

/-! A directory refines an ordered finite map from names to inode numbers: `minix_add_link` appends
a key that is not there yet, and `minix_inode_by_name` looks one up. Both programs start a
directory with `.` and `..`. -/

namespace Aufs
open Bytes Word

variable {order : ByteOrder} {config : Configuration} {sb : Sb}

/-- The map that a directory stands for. -/
abbrev DirMap := OrderedMap (List Byte) Nat

structure DirState where
  inode : AufsInode
  content : Mem

inductive DirOp where
  | addLink (env : DirEnv) (zmap : MapBlocks) (name : List Byte) (ino : Nat)
  | inodeByName (env : DirEnv) (name : List Byte)

inductive DirOut where
  | added (ret : Option (Except Errno Unit))
  | number (ino : Nat)

/-- A call on the directory. Page reads may fail as they like; page writes, zone allocations and
the nine zones do not run out. Between calls the zone map changes as other files grow. -/
inductive DirStep (order : ByteOrder) (sb : Sb) : DirState → DirOp → DirOut → DirState → Prop
  | addLink {s env zmap name ino} : ValidName name → 1 ≤ ino → ino < 2 ^ 32 →
    s.inode.iSize / AUFS_DIR_SIZE < 9 * sb.sbi.asbZoneSize / AUFS_DIR_SIZE →
    env.blockRead = .ok () → env.writeOnePage = .ok () →
    (minixAddLink order sb env zmap s.inode s.content name ino).newZone ≠ some 0 →
    DirStep order sb s (.addLink env zmap name ino)
      (.added (minixAddLink order sb env zmap s.inode s.content name ino).ret)
      { inode := (minixAddLink order sb env zmap s.inode s.content name ino).dir
        content := (minixAddLink order sb env zmap s.inode s.content name ino).content }
  | inodeByName {s env name} : ValidName name →
    DirStep order sb s (.inodeByName env name)
      (.number (minixInodeByName order env s.inode s.content name)) s

/-- How a directory comes to be, with its first entries: `minix_make_empty` on a new inode, or
`MkRootDir`, whose root inode the kernel loads from its slot. -/
inductive DirStart (order : ByteOrder) (sb : Sb) (image : Image) :
    List (List Byte × Nat) → DirState → Prop
  | empty {task imap leftover parent mode inode imap' env zmap content} :
    aufsNewInode task sb imap (some (newInode leftover)) parent mode = (.ok inode, imap') →
    1 ≤ parent.iIno → parent.iIno < 2 ^ 32 →
    (minixMakeEmpty order sb env zmap inode content parent.iIno).ret = some (.ok ()) →
    (minixMakeEmpty order sb env zmap inode content parent.iIno).newZone ≠ some 0 →
    DirStart order sb image [(ascii ".", inode.iIno), (ascii "..", parent.iIno)]
      { inode := (minixMakeEmpty order sb env zmap inode content parent.iIno).dir
        content := (minixMakeEmpty order sb env zmap inode content parent.iIno).content }
  | root {leftover inode content} :
    aufsInodeGet leftover sb.sbi.asbRootInode (image.rootSlot sb) = .ok inode →
    (∀ a < inode.iSize, content a = image.rootContent a) →
    DirStart order sb image [(ascii ".", rawOne order), (ascii "..", rawOne order)]
      { inode, content }

/-- The entries that a history has added. -/
def addedEntries (hist : List (DirOp × DirOut)) : List (List Byte × Nat) :=
  hist.filterMap fun e =>
    match e with
    | (.addLink _ _ name ino, .added (some (.ok ()))) => some (name, ino)
    | _ => none

/-- The directory holds the map `m`. -/
structure DirState.Refines (order : ByteOrder) (s : DirState) (m : DirMap) : Prop where
  size : s.inode.iSize = m.entries.length * AUFS_DIR_SIZE
  entries : dirEntries order s.inode s.content = m.entries
  nonzero : ∀ e ∈ m.entries, e.2 ≠ 0

namespace DirState.Refines

variable {s : DirState} {m : DirMap}

theorem wellFormed (r : s.Refines order m) : WellFormed order s.inode s.content := by
  refine wellFormed_iff.mpr ⟨?_, r.entries ▸ r.nonzero⟩
  rw [r.size]
  exact Nat.mul_mod_left ..

theorem of_wellFormed (wf : WellFormed order s.inode s.content)
    (h : dirEntries order s.inode s.content = m.entries) : s.Refines order m := by
  refine ⟨?_, h, h ▸ (wellFormed_iff.mp wf).2⟩
  have hal := wf.aligned
  rw [← h, dirEntries_length]
  exact (Nat.div_mul_cancel (Nat.dvd_of_mod_eq_zero hal)).symm

end DirState.Refines

/-- What a call does to the map. A page that cannot be read makes `minix_add_link` fail and lets
`minix_inode_by_name` miss the name. -/
inductive MapStep : DirMap → DirOp → DirOut → DirMap → Prop
  | added {m env zmap name ino} (h : name ∉ m.keys) :
    MapStep m (.addLink env zmap name ino) (.added (some (.ok ()))) (m.append name ino h)
  | exist {m env zmap name ino} : name ∈ m.keys →
    MapStep m (.addLink env zmap name ino) (.added (some (.error .eexist))) m
  | unread {m env zmap name ino n e} : env.readMappingPage n = .error e →
    MapStep m (.addLink env zmap name ino) (.added (some (.error e))) m
  | found {m env name ino} : (name, ino) ∈ m.entries →
    MapStep m (.inodeByName env name) (.number ino) m
  | absent {m env name} : name ∉ m.keys → MapStep m (.inodeByName env name) (.number 0) m
  | missed {m env name n e} : env.readMappingPage n = .error e →
    MapStep m (.inodeByName env name) (.number 0) m

theorem MapStep.entries {m m' : DirMap} (h : MapStep m op out m') :
    m'.entries = m.entries ++ addedEntries [(op, out)] := by
  cases h with
  | added => rfl
  | exist | unread | found | absent | missed => exact (List.append_nil _).symm

section
variable (R : sb.Reads config) {s s' : DirState} {m : DirMap}
include R

/-- The chunk of a new entry stays below nine zones. -/
theorem size_lt_of_room (wf : WellFormed order dir content)
    (h : dir.iSize / AUFS_DIR_SIZE < 9 * sb.sbi.asbZoneSize / AUFS_DIR_SIZE) :
    dir.iSize < 9 * config.zoneSize := by
  have hal := wf.aligned
  rw [R.zoneSize] at h
  simp only [AUFS_DIR_SIZE] at *
  omega

variable (H : config.Accepted)
include H

/-- Every call of the code is a call of the map. -/
theorem DirStep.refines (r : s.Refines order m) (hs : DirStep order sb s op out s') :
    ∃ m', MapStep m op out m' ∧ s'.Refines order m' := by
  have wf := r.wellFormed
  cases hs with
  | @addLink env zmap name ino hname h1 hino hroom hread hwrite =>
    have hsize := size_lt_of_room R wf hroom
    have hkeys : (dirEntries order s.inode s.content).map Prod.fst = m.keys := by
      rw [r.entries]
      rfl
    rcases minixAddLink_cases R H wf hname hino hsize hread zmap with
      ⟨hmem, heq⟩ | ⟨hmem, hret, -, happ⟩ | ⟨n, e, he, heq⟩
    · rw [heq]
      exact ⟨m, .exist (hkeys ▸ hmem), r⟩
    · rw [hkeys] at hmem
      rw [hret, hwrite]
      refine ⟨m.append name ino hmem, .added hmem, .of_wellFormed ?_ ?_⟩
      · exact happ.wellFormed wf (by omega)
      · exact happ.entries.trans (by rw [r.entries]; rfl)
    · rw [heq]
      exact ⟨m, .unread he, r⟩
  | @inodeByName env name hname =>
    rcases minixInodeByName_spec env wf hname with
      ⟨g, hg, hn, heq⟩ | ⟨heq, hall | ⟨n, e, he⟩⟩
    · rw [heq]
      refine ⟨m, .found ?_, r⟩
      rw [← r.entries, ← hn]
      exact mem_dirEntries.mpr ⟨g, hg, rfl⟩
    · rw [heq]
      refine ⟨m, .absent ?_, r⟩
      rw [OrderedMap.mem_keys, ← r.entries]
      rintro ⟨ino, hmem⟩
      obtain ⟨g, hg, hslot⟩ := mem_dirEntries.mp hmem
      exact hall g hg (congrArg Prod.fst hslot)
    · rw [heq]
      exact ⟨m, .missed he, r⟩

/-- A new directory is the map of its first two entries. -/
theorem DirStart.refines {image : Image} {env : MkfsEnv} (hf : image.Formatted config env)
    (hs : DirStart order sb image init s) :
    ∃ m : DirMap, m.entries = init ∧ s.Refines order m := by
  have hdots : ∀ a b : Nat, ([(ascii ".", a), (ascii "..", b)].map Prod.fst).Nodup := by
    intro a b
    change [ascii ".", ascii ".."].Nodup
    decide
  cases hs with
  | @empty task imap leftover parent mode inode imap' env zmap content hnew hp1 hp2 hret =>
    obtain ⟨n, j, hn, hj, h0, -, -, rfl⟩ := aufsNewInode_ok R.inodeMapBlocks hnew
    cases hn
    have hlt := R.bits_lt H
    obtain ⟨hgrab, hread⟩ := minixMakeEmpty_ok hret
    have hino : (initInode task (newInode leftover) parent mode j).iIno < 2 ^ 32 := by
      change j < 2 ^ 32
      omega
    obtain ⟨-, -, hsize, hentries⟩ := minixMakeEmpty_spec R H order hgrab hread (initInode_iSize ..)
      hino hp2 zmap content
    refine ⟨⟨_, hdots _ _⟩, rfl, .of_wellFormed (wellFormed_iff.mpr ⟨?_, ?_⟩) hentries⟩
    · rw [hsize]
      rfl
    · rw [hentries]
      intro e he
      rcases List.mem_pair.mp he with rfl | rfl
      · exact h0
      · exact Nat.ne_of_gt hp1
  | @root leftover inode content hget hcontent =>
    obtain ⟨root, hroot, his⟩ := aufsInodeGet_root H R hf leftover
    obtain rfl : root = inode := Except.ok.inj (hroot.symm.trans hget)
    obtain ⟨old, hold⟩ := hf.rootContent
    have hslots := slots_rootDirContent order old
    have hentries : dirEntries order root content =
        [(ascii ".", rawOne order), (ascii "..", rawOne order)] := by
      rw [dirEntries_congr rfl hcontent, dirEntries_two his.size, hold, hslots.1, hslots.2]
    refine ⟨⟨_, hdots _ _⟩, rfl, .of_wellFormed (wellFormed_iff.mpr ⟨?_, ?_⟩) hentries⟩
    · rw [his.size]
      rfl
    · change ∀ e ∈ dirEntries order root content, _
      rw [hentries]
      intro e he
      rcases List.mem_pair.mp he with rfl | rfl <;> exact rawOne_ne_zero order

/-- Every run on the directory is a run on the map. -/
theorem run_refines {s₀ : DirState} {m₀ : DirMap} (r₀ : s₀.Refines order m₀)
    (t : Trace (DirStep order sb) s₀ hist s) :
    ∃ m, Trace MapStep m₀ hist m ∧ s.Refines order m := by
  induction t with
  | nil => exact ⟨m₀, .nil, r₀⟩
  | snoc _ hs ih =>
    obtain ⟨m, tm, r⟩ := ih
    obtain ⟨m', hm, r'⟩ := DirStep.refines R H r hs
    exact ⟨m', tm.snoc hm, r'⟩

end

theorem MapStep.run_entries {m₀ m : DirMap} (t : Trace MapStep m₀ hist m) :
    m.entries = m₀.entries ++ addedEntries hist := by
  induction t with
  | nil => exact (List.append_nil _).symm
  | snoc _ hm ih =>
    rw [hm.entries, ih, List.append_assoc, addedEntries, addedEntries, addedEntries,
      List.filterMap_append]

/-- In every run from a new directory, or from the root directory of an image, the slots are the
first two entries and the added ones in order, with distinct names and nonzero numbers; adding a
name appends it exactly when it is new, and looking one up gives its number, or 0 exactly when it
is not there. -/
theorem directory_refines_map {deviceSize : String → Nat} {argv : List String} {env : MkfsEnv}
    {fuel : Nat} {dev : Device} {image : Image} {init : List (List Byte × Nat)}
    {hist : List (DirOp × DirOut)} {s₀ s : DirState}
    (hargs : parseArgs deviceSize argv = .ok config)
    (himage : mkfs env fuel config dev = some image)
    (hsb : sb = aufsFillSb image.superBlock) (hstart : DirStart order sb image init s₀)
    (t : Trace (DirStep order sb) s₀ hist s) :
    ∃ m : DirMap, m.entries = init ++ addedEntries hist ∧
      s.inode.iSize = m.entries.length * AUFS_DIR_SIZE ∧
      dirEntries order s.inode s.content = m.entries ∧ (∀ e ∈ m.entries, e.2 ≠ 0) ∧
      (∀ env zmap name ino ret s',
        DirStep order sb s (.addLink env zmap name ino) (.added ret) s' →
        (∀ n, env.readMappingPage n = .ok ()) →
        (ret = some (.error .eexist) ↔ name ∈ m.keys) ∧
        (name ∈ m.keys → s' = s) ∧
        (name ∉ m.keys → ret = some (.ok ()) ∧
          s'.inode.iSize = s.inode.iSize + AUFS_DIR_SIZE ∧
          (∀ a < s.inode.iSize, s'.content a = s.content a) ∧
          dirEntries order s'.inode s'.content = m.entries ++ [(name, ino)])) ∧
      ∀ env name no s', DirStep order sb s (.inodeByName env name) (.number no) s' →
        (∀ n, env.readMappingPage n = .ok ()) →
        (∀ ino, (name, ino) ∈ m.entries → no = ino) ∧ (no = 0 ↔ name ∉ m.keys) := by
  have H := accepted_of_parseArgs hargs
  have hf := mkfs_formatted H himage
  have R : sb.Reads config := hsb ▸ aufsFillSb_reads H hf
  obtain ⟨m₀, hinit, r₀⟩ := hstart.refines R H hf
  obtain ⟨m, tm, r⟩ := run_refines R H r₀ t
  have wf := r.wellFormed
  refine ⟨m, hinit ▸ MapStep.run_entries tm, r.size, r.entries, r.nonzero, ?_, ?_⟩
  · intro env zmap name ino ret s' hs hreads
    have hkeys : (dirEntries order s.inode s.content).map Prod.fst = m.keys := by
      rw [r.entries]
      rfl
    cases hs with
    | addLink hname _ hino hroom hread hwrite =>
      have hsize := size_lt_of_room R wf hroom
      rcases minixAddLink_cases R H wf hname hino hsize hread zmap with
        ⟨hmem, heq⟩ | ⟨hmem, hret, -, happ⟩ | ⟨n, e, he, -⟩
      · rw [hkeys] at hmem
        rw [heq]
        exact ⟨⟨fun _ => hmem, fun _ => rfl⟩, fun _ => rfl, fun h => absurd hmem h⟩
      · rw [hkeys] at hmem
        rw [hret, hwrite]
        refine ⟨⟨nofun, fun h => absurd h hmem⟩, fun h => absurd h hmem, fun _ => ?_⟩
        exact ⟨rfl, happ.size, happ.old, r.entries ▸ happ.entries⟩
      · rw [hreads n] at he
        cases he
  · intro env name no s' hs hreads
    obtain ⟨m', hm, -⟩ := DirStep.refines R H r hs
    cases hm with
    | found hmem =>
      refine ⟨fun ino h => OrderedMap.value_unique hmem h, fun h0 => ?_, fun h => ?_⟩
      · exact absurd h0 (r.nonzero _ hmem)
      · exact absurd (OrderedMap.mem_keys.mpr ⟨_, hmem⟩) h
    | absent hno =>
      refine ⟨fun ino h => ?_, fun _ => hno, fun _ => rfl⟩
      exact absurd (OrderedMap.mem_keys.mpr ⟨_, h⟩) hno
    | missed he =>
      rw [hreads] at he
      cases he

/-- A call during which nothing fails. -/
def quietEnv : DirEnv where
  readMappingPage := fun _ => .ok ()
  stale := fun _ => 0
  grabCachePage := .ok ()
  blockRead := .ok ()
  writeOnePage := .ok ()
  currentTime := 0
  behind := fun _ => 0

/-- A directory of two entries has room for one more in its first zone. -/
theorem minixAddLink_third (M : Mounted config sb) {dir : DirState} {m : DirMap}
    (r : dir.Refines order m)
    (hsize : dir.inode.iSize = 2 * AUFS_DIR_SIZE)
    (hptr : dir.inode.aiZonePtr ⟨_, firstBlock_idx config⟩ ≠ 0) (hname : ValidName name)
    (hnew : name ∉ m.keys) (hino : ino < 2 ^ 32) (zmap : MapBlocks) :
    (minixAddLink order sb quietEnv zmap dir.inode dir.content name ino).ret = some (.ok ()) ∧
    (minixAddLink order sb quietEnv zmap dir.inode dir.content name ino).newZone = none ∧
    (minixAddLink order sb quietEnv zmap dir.inode dir.content name ino).dir.iSize =
      3 * AUFS_DIR_SIZE := by
  have H := M.accepted
  have R := M.reads
  rcases minixAddLink_effect r.wellFormed hname hino sb quietEnv zmap with
    ⟨hmem, -⟩ | ⟨_, _, he, -⟩ | ⟨e, he, -⟩ | ⟨-, hz, hok, -, happ⟩
  · rw [r.entries] at hmem
    exact absurd hmem hnew
  · cases he
  · have hlt : dir.inode.iSize < 9 * config.zoneSize := by
      have := H.zoneSize_ge
      rw [hsize, AUFS_DIR_SIZE]
      omega
    have hread : quietEnv.blockRead = .ok () := rfl
    obtain ⟨b, ptr, hret, -⟩ := minixPrepareChunk_spec R H hlt hread zmap dir.inode
    cases he.symm.trans hret
  · have hblock : dir.inode.iSize / sb.sBlocksize = 0 := by
      have := H.blockSize_cases
      rw [hsize, R.blocksize, AUFS_DIR_SIZE]
      exact Nat.div_eq_of_lt (by omega)
    refine ⟨hok, ?_, ?_⟩
    · rw [hz, minixPrepareChunk_newZone, hblock, R.getBlock_mapped H _ hptr]
    · rw [happ.size, hsize]
      rfl

/-- The name `a`. -/
def nameA : List Byte := ascii "a"

theorem validName_nameA : ValidName nameA := ⟨by decide, by decide, by decide⟩

/-- A file is added to the root directory, in a zone that the root has already. On a little-endian
host the first two entries show as inode `2 ^ 24`. -/
theorem exists_added {image : Image} {env : MkfsEnv} (M : Mounted config sb)
    (hf : image.Formatted config env) (zmap : MapBlocks) :
    ∃ s₀ s, ∃ m₀ m : DirMap,
      DirStart .little sb image [(ascii ".", 2 ^ 24), (ascii "..", 2 ^ 24)] s₀ ∧
      s₀.Refines .little m₀ ∧ m₀.entries = [(ascii ".", 2 ^ 24), (ascii "..", 2 ^ 24)] ∧
      s.Refines .little m ∧
      m.entries = [(ascii ".", 2 ^ 24), (ascii "..", 2 ^ 24), (nameA, 2)] ∧
      DirStep .little sb s₀ (.addLink quietEnv zmap nameA 2) (.added (some (.ok ()))) s := by
  have H := M.accepted
  have R := M.reads
  obtain ⟨root, hget, his⟩ := aufsInodeGet_root H R hf (fun _ => 0)
  have hstart : DirStart .little sb image [(ascii ".", 2 ^ 24), (ascii "..", 2 ^ 24)]
      ⟨root, image.rootContent⟩ := .root hget fun _ _ => rfl
  obtain ⟨m, hm, r⟩ := hstart.refines R H hf
  have hptr : root.aiZonePtr ⟨_, firstBlock_idx config⟩ ≠ 0 := by
    rw [his.zone, if_pos (Nat.zero_div _), H.rootBlock_eq]
    exact Nat.succ_ne_zero _
  have hnew : nameA ∉ m.keys := by
    rw [OrderedMap.keys, hm]
    change nameA ∉ [ascii ".", ascii ".."]
    decide
  have hroom : root.iSize / AUFS_DIR_SIZE < 9 * sb.sbi.asbZoneSize / AUFS_DIR_SIZE := by
    have := H.zoneSize_ge
    rw [his.size, R.zoneSize, AUFS_DIR_SIZE]
    omega
  obtain ⟨hret, hzone, -⟩ :=
    minixAddLink_third M r his.size hptr validName_nameA hnew (show 2 < 2 ^ 32 by decide) zmap
  have hstep : DirStep .little sb ⟨root, image.rootContent⟩ (.addLink quietEnv zmap nameA 2) _ _ :=
    .addLink validName_nameA (by decide) (by decide) hroom rfl rfl
      (hzone ▸ (Option.some_ne_none _).symm)
  rw [hret] at hstep
  obtain ⟨m', hadd, r'⟩ := hstep.refines R H r
  have hm' : m'.entries = [(ascii ".", 2 ^ 24), (ascii "..", 2 ^ 24)] ++ [(nameA, 2)] := by
    rw [hadd.entries, hm]
    rfl
  exact ⟨_, _, m, m', hstart, r, hm, r', hm', hstep⟩

/-- It is found, and cannot be added again. -/
theorem directory_refines_map_root :
    ∃ image s₀ s zmap, mkfs rootEnv 1 eightZones (blankDevice (2 ^ 20)) = some image ∧
      DirStart .little (aufsFillSb image.superBlock) image
        [(ascii ".", 2 ^ 24), (ascii "..", 2 ^ 24)] s₀ ∧
      Trace (DirStep .little (aufsFillSb image.superBlock)) s₀
        [(.addLink quietEnv zmap nameA 2, .added (some (.ok ()))),
          (.inodeByName quietEnv nameA, .number 2),
          (.addLink quietEnv zmap nameA 3, .added (some (.error .eexist)))] s ∧
      dirEntries .little s.inode s.content =
        [(ascii ".", 2 ^ 24), (ascii "..", 2 ^ 24), (nameA, 2)] := by
  have H := accepted_of_parseArgs eightZones_parsed
  obtain ⟨image, himage, hf, R⟩ := exists_image H rootEnv (blankDevice (2 ^ 20))
  obtain ⟨s₀, s, -, m', hstart, -, -, r, hm', hadd⟩ :=
    exists_added ⟨H, R, eightZones_fit R⟩ hf fun _ => image.zoneMap
  obtain ⟨m, hm, -, hentries, -, hadds, hlookups⟩ :=
    directory_refines_map eightZones_parsed himage rfl hstart (.single hadd)
  replace hm : m.entries = [(ascii ".", 2 ^ 24), (ascii "..", 2 ^ 24), (nameA, 2)] := hm
  have hsize : s.inode.iSize = 3 * AUFS_DIR_SIZE := by
    rw [r.size, hm']
    rfl
  have hmem : (nameA, 2) ∈ m.entries := by
    rw [hm]
    exact List.mem_of_mem_getLast? rfl
  have hkey : nameA ∈ m.keys := OrderedMap.mem_keys.mpr ⟨2, hmem⟩
  -- the lookup
  have hfind : DirStep .little (aufsFillSb image.superBlock) s (.inodeByName quietEnv nameA) _ _ :=
    .inodeByName validName_nameA
  rw [(hlookups _ _ _ _ hfind fun _ => rfl).1 2 hmem] at hfind
  -- the second call
  have hroom : s.inode.iSize / AUFS_DIR_SIZE <
      9 * (aufsFillSb image.superBlock).sbi.asbZoneSize / AUFS_DIR_SIZE := by
    have := H.zoneSize_ge
    rw [hsize, R.zoneSize, AUFS_DIR_SIZE]
    omega
  have hkeys : nameA ∈ (dirEntries .little s.inode s.content).map Prod.fst := by
    rw [hentries]
    exact hkey
  have hzone : (minixAddLink .little (aufsFillSb image.superBlock) quietEnv
      (fun _ => image.zoneMap) s.inode s.content nameA 3).newZone = none := by
    rcases minixAddLink_cases R H r.wellFormed validName_nameA (show 3 < 2 ^ 32 by decide)
      (size_lt_of_room R r.wellFormed hroom) (show quietEnv.blockRead = .ok () from rfl)
      fun _ => image.zoneMap with
      ⟨-, heq⟩ | ⟨hno, -⟩ | ⟨_, _, he, -⟩
    · rw [heq]
    · exact absurd hkeys hno
    · cases he
  have hagain : DirStep .little (aufsFillSb image.superBlock) s
      (.addLink quietEnv (fun _ => image.zoneMap) nameA 3) _ _ :=
    .addLink validName_nameA (by decide) (by decide) hroom rfl rfl
      (hzone ▸ (Option.some_ne_none _).symm)
  obtain ⟨hexist, hsame, -⟩ := hadds _ _ _ _ _ _ hagain fun _ => rfl
  rw [hexist.mpr hkey, hsame hkey] at hagain
  exact ⟨image, s₀, s, _, himage, hstart, ((Trace.single hadd).snoc hfind).snoc hagain,
    hentries.trans hm⟩

end Aufs
