import Aufs.Verify.FailedCreate
import Aufs.Verify.FileData
import Aufs.Verify.PathWalk

/-! Data by path. Names and file data share the two maps and the inodes; put together, each path
that resolves has bytes of its own. Directories stay in the page cache. -/

namespace Aufs
open Bytes Word

variable {order : ByteOrder} {config : Configuration} {sb : Sb} {behind : Nat → Nat} {env : DirEnv}

/-- A mounted file system: the maps, the directories and the other inodes by number, the device. -/
structure PathSys where
  zmap : MapBlocks
  imap : MapBlocks
  dirs : Nat → Option DirState
  files : Nat → Option AufsInode
  dev : Device

namespace PathSys

def names (s : PathSys) : NameSpace where
  zmap := s.zmap
  imap := s.imap
  dirs := s.dirs

def data (s : PathSys) : FileSys where
  zmap := s.zmap
  imap := s.imap
  files := s.files
  dev := s.dev

/-- After a call: an inode that it made is a directory or a file. -/
def called (s : PathSys) (op : NameiOp) (r : NameiCall) : PathSys where
  zmap := r.zmap
  imap := r.imap
  dirs := (s.names.after op r).dirs
  files :=
    match madeDir op r, r.ret, r.inode with
    | none, some (.ok ()), some (inode, _) => Function.update s.files inode.iIno (some inode)
    | _, _, _ => s.files
  dev := s.dev

/-- After an operation on the data. -/
def withData (s : PathSys) (d : FileSys) : PathSys where
  zmap := d.zmap
  imap := d.imap
  dirs := s.dirs
  files := d.files
  dev := d.dev

/-- The file system right after mounting. -/
def mount (image : Image) (config : Configuration) (dev : Device) (names : NameSpace) :
    PathSys where
  zmap := names.zmap
  imap := names.imap
  dirs := names.dirs
  files := fun _ => none
  dev := image.device config dev

end PathSys

inductive PathOp where
  | call (op : NameiOp)
  | write (path : List (List Byte)) (pos : Nat) (bytes : List Byte)
  | read (path : List (List Byte)) (pos len : Nat)

inductive PathOut where
  | called (r : NameiCall)
  | written (n : Nat)
  | bytes (bytes : List Byte)

/-- A call that creates, or a write or a read of the file that a path resolves to. -/
inductive PathStep (order : ByteOrder) (sb : Sb) (behind : Nat → Nat) (env : DirEnv) :
    PathSys → PathOp → PathOut → PathSys → Prop
  | call {s op r names} : NameiStep order sb s.names op r names →
    PathStep order sb behind env s (.call op) (.called r) (s.called op r)
  | write {s path ino pos bytes n d} : (∀ name ∈ path, Component name) →
    s.names.walk order env sb.sbi.asbRootInode path = some ino →
    s.data.Step sb behind (.write ino pos bytes) (.written n) d →
    PathStep order sb behind env s (.write path pos bytes) (.written n) (s.withData d)
  | read {s path ino pos len got d} : (∀ name ∈ path, Component name) →
    s.names.walk order env sb.sbi.asbRootInode path = some ino →
    s.data.Step sb behind (.read ino pos len) (.bytes got) d →
    PathStep order sb behind env s (.read path pos len) (.bytes got) (s.withData d)

/-- The byte arrays by path after one more operation. -/
def recordPath (spec : List (List Byte) × Nat → Option Byte) :
    PathOp × PathOut → List (List Byte) × Nat → Option Byte
  | (.write path pos bytes, .written n) => fun k =>
    if k.1 = path ∧ pos ≤ k.2 ∧ k.2 < pos + (bytes.take n).length then
      (bytes.take n)[k.2 - pos]?
    else spec k
  | _ => spec

section
variable {zmap imap : MapBlocks} {env : NameiEnv}

/-- No bit of the zone map is cleared. -/
theorem Sb.TakesZones.mono {zmap' : MapBlocks} {zones : List Int}
    (h : sb.TakesZones zmap zmap' zones) (hj : j < 8 * sb.sBlocksize)
    (hbit : bit (zmap 0) j = true) : bit (zmap' 0) j = true := by
  obtain ⟨ks, -, hgains⟩ := h
  have hset := hgains.set (0 * (8 * sb.sBlocksize) + j)
  rw [rowBit_block hj, rowBit_block hj, hbit, ite_self] at hset
  exact hset

theorem minixMknod_takesZones (dir : AufsInode) (content : Mem) (name : List Byte)
    (mode rdev : Nat) (pages : Mem) :
    sb.TakesZones zmap (minixMknod order sb env zmap imap dir content name mode rdev pages).zmap
      (minixMknod order sb env zmap imap dir content name mode rdev pages).newZones := by
  unfold minixMknod
  split
  · exact .nil
  · rcases aufsNewInode env.task sb imap env.new dir mode with ⟨e | inode, imap'⟩
    · exact .nil
    · simp only
      split
      · exact .nil
      · exact (minixAddLink_failed order sb env.dir zmap dir content name inode.iIno).2.1

theorem minixMkdir_takesZones (dir : AufsInode) (content : Mem) (name : List Byte) (mode : Nat)
    (pages : Mem) :
    sb.TakesZones zmap (minixMkdir order sb env zmap imap dir content name mode pages).zmap
      (minixMkdir order sb env zmap imap dir content name mode pages).newZones := by
  simp only [minixMkdir]
  rcases aufsNewInode env.task sb imap env.new (inodeIncLinkCount dir) (S_IFDIR ||| mode) with
    ⟨e | inode, imap'⟩
  · exact .nil
  · have hmake := minixMakeEmpty_takesZones order sb env.inode zmap (inodeIncLinkCount inode) pages
      (inodeIncLinkCount dir).iIno
    simp only
    split
    · exact hmake.append (minixAddLink_failed ..).2.1
    · exact hmake

/-- No call clears a bit of the zone map. -/
theorem NameSpace.call_takesZones (s : NameSpace) (dir : DirState) (op : NameiOp) :
    sb.TakesZones s.zmap (s.call order sb dir op).zmap (s.call order sb dir op).newZones := by
  obtain ⟨kind, d, env, pages⟩ := op
  cases kind with
  | create | mknod => exact minixMknod_takesZones ..
  | mkdir => exact minixMkdir_takesZones ..
  | tmpfile mode =>
    simp only [NameSpace.call, minixTmpfile]
    rcases aufsNewInode env.task sb s.imap env.new dir.inode mode with ⟨e | inode, imap'⟩
    · exact .nil
    · exact .nil

/-- A file that a call has made has no zones and a number that was free. -/
theorem NameSpace.call_file (R : sb.Reads config) (H : config.Accepted) {s : NameSpace}
    {dir : DirState} {op : NameiOp} {r : NameiCall}
    (hfresh : ∀ new ∈ op.env.new, ∃ leftover, new = newInode leftover)
    (hr : s.call order sb dir op = r) (hmade : madeDir op r = none)
    (hret : r.ret = some (.ok ())) (hinode : r.inode = some (inode, pages)) :
    (∀ i, inode.aiZonePtr i = 0) ∧ bit (s.imap 0) inode.iIno = false ∧
      bit (r.imap 0) inode.iIno = true := by
  obtain ⟨kind, d, env, pages'⟩ := op
  -- an inode that `aufs_new_inode` returned, whatever was done to its other fields
  have hnew : ∀ {dir' mode new imap'},
      aufsNewInode env.task sb s.imap env.new dir' mode = (.ok new, imap') →
      (∀ i, new.aiZonePtr i = 0) ∧ bit (s.imap 0) new.iIno = false ∧
        bit (imap' 0) new.iIno = true := by
    intro dir' mode new imap' h
    obtain ⟨-, -, -, hclear, hbits⟩ := newInode_fresh R H hfresh h
    obtain ⟨n, j, -, -, -, -, -, rfl⟩ := aufsNewInode_ok R.inodeMapBlocks h
    exact ⟨fun _ => rfl, hclear, (hbits _).mpr (.inl rfl)⟩
  have hmknod : ∀ name mode rdev,
      minixMknod order sb env s.zmap s.imap dir.inode dir.content name mode rdev pages' = r →
      (∀ i, inode.aiZonePtr i = 0) ∧ bit (s.imap 0) inode.iIno = false ∧
        bit (r.imap 0) inode.iIno = true := by
    intro name mode rdev h
    unfold minixMknod at h
    split at h
    · subst h
      cases hret
    · rcases h' : aufsNewInode env.task sb s.imap env.new dir.inode mode with ⟨e | new, imap'⟩
      · rw [h'] at h
        subst h
        cases hret
      · rw [h'] at h
        simp only at h
        split at h
        · subst h
          cases hret
        · subst h
          simp only [addNondir] at hret hinode
          rw [hret] at hinode
          cases hinode
          obtain ⟨hzero, hclear, hbit⟩ := hnew h'
          exact ⟨hzero, hclear, hbit⟩
  cases kind with
  | create name mode => exact hmknod name mode 0 hr
  | mknod name mode rdev => exact hmknod name mode rdev hr
  | mkdir name mode =>
    simp only [madeDir, hret, hinode] at hmade
    cases hmade
  | tmpfile mode =>
    change minixTmpfile sb env s.zmap s.imap dir.inode dir.content mode pages' = r at hr
    unfold minixTmpfile at hr
    rcases h' : aufsNewInode env.task sb s.imap env.new dir.inode mode with ⟨e | new, imap'⟩
    · rw [h'] at hr
      subst hr
      cases hret
    · rw [h'] at hr
      subst hr
      cases hinode
      have hptr : (inodeDecLinkCount (markInodeDirty new)).aiZonePtr = new.aiZonePtr :=
        (nlink_frame (markInodeDirty new) _).2.2
      rw [hptr, inodeDecLinkCount_iIno]
      exact hnew h'

end

namespace FileSys

variable {s s' s'' : FileSys} {spec spec' : Nat × Nat → Option Byte}

theorem Stepped.trans (h : Stepped config sb behind spec s s')
    (h' : Stepped config sb behind spec' s' s'') : Stepped config sb behind spec' s s'' :=
  ⟨h'.inv, h'.holds, fun ino iblock b hb => h'.block ino iblock b (h.block ino iblock b hb)⟩

/-- Bits set in the maps. -/
theorem Stepped.maps (M : Mounted config sb) (I : Inv config sb s) (h : s.Holds sb behind spec)
    {zmap imap : MapBlocks}
    (hz : ∀ j < 8 * sb.sBlocksize, bit (s.zmap 0) j = true → bit (zmap 0) j = true)
    (hi : ∀ j, bit (s.imap 0) j = true → bit (imap 0) j = true) :
    Stepped config sb behind spec s { s with zmap, imap } := by
  have I' : Inv config sb { s with zmap, imap } := by
    refine ⟨fun j hj hbit => I.clear j hj ?_, fun ino inode hf => hi _ (I.named ino inode hf),
      fun ino i p hp => ?_, I.distinct⟩
    · by_contra hne
      cases hbit.symm.trans (hz j hj (Bool.eq_true_of_not_eq_false hne))
    · obtain ⟨j, h2, hlt, hbit, rfl⟩ := I.owned ino i p hp
      have hle := M.accepted.numZones_le
      have hbs := M.reads.blocksize
      exact ⟨j, h2, hlt, hz j (by omega) hbit, rfl⟩
  exact .of_blocks h I' rfl (fun _ _ => block_of_ptr M I I' fun _ _ _ => Iff.rfl) fun _ _ hf => hf

/-- A new file. -/
theorem Stepped.addInode (M : Mounted config sb) (I : Inv config sb s)
    (h : s.Holds sb behind spec) {imap : MapBlocks} {inode : AufsInode}
    (hzero : ∀ i, inode.aiZonePtr i = 0) (hclear : bit (s.imap 0) inode.iIno = false)
    (hmap : ∀ k, bit (s.imap 0) k = true → bit (imap 0) k = true)
    (hbit : bit (imap 0) inode.iIno = true) :
    Stepped config sb behind spec s (s.addInode imap inode) := by
  have hnew : s.files inode.iIno = none := by
    cases hi : s.files inode.iIno with
    | none => rfl
    | some inode' => cases hclear.symm.trans (I.named _ inode' hi)
  have I' : Inv config sb (s.addInode imap inode) := I.addInode hnew hzero hmap hbit
  refine .of_blocks h I' rfl (fun _ _ => block_addInode hnew hzero M I I') fun ino inode' hi => ?_
  have hne : ino ≠ inode.iIno := by
    rintro rfl
    cases hnew.symm.trans hi
  exact (Function.update_of_ne hne ..).trans hi

end FileSys

open FileSys

/-! ## Runs -/

/-- The tree invariant does not look at the zone map. -/
theorem NameSpace.Stands.zmap {s : NameSpace} {t : NameTree} (h : s.Stands order t)
    (zmap : MapBlocks) : NameSpace.Stands order { s with zmap } t :=
  ⟨⟨h.refines.used, h.refines.dir⟩, h.tree, h.valid⟩

/-- The file system holds the arrays `spec`: each path written to resolves, and the data holds its
bytes under the number that it resolves to. -/
structure PathSys.Holds (order : ByteOrder) (config : Configuration) (sb : Sb) (behind : Nat → Nat)
    (env : DirEnv) (s : PathSys) (spec : List (List Byte) × Nat → Option Byte) : Prop where
  stands : ∃ t, s.names.Stands order t
  inv : Inv config sb s.data
  data : ∃ bytes, s.data.Holds sb behind bytes ∧ ∀ path o v, spec (path, o) = some v →
    (∀ name ∈ path, Component name) ∧
      ∃ ino, s.names.walk order env 1 path = some ino ∧ bytes (ino, o) = some v

/-- The names after an operation on the data. -/
theorem PathSys.withData_names {s : PathSys} {d : FileSys} (himap : d.imap = s.imap) :
    (s.withData d).names = { s.names with zmap := d.zmap } := by
  simp only [names, withData, himap]

section
variable (M : Mounted config sb) (hread : ∀ n, env.readMappingPage n = .ok ()) {s s' : PathSys}
  {spec : List (List Byte) × Nat → Option Byte}
include M

/-- What a call does to the data. -/
theorem PathSys.called_stepped {t : NameTree} {op : NameiOp} {r : NameiCall} {names : NameSpace}
    {bytes : Nat × Nat → Option Byte} (ref : s.names.Refines order t) (I : Inv config sb s.data)
    (h : s.data.Holds sb behind bytes) (hs : NameiStep order sb s.names op r names) :
    Stepped config sb behind bytes s.data (s.called op r).data := by
  have R := M.reads
  have H := M.accepted
  cases hs with
  | @call dir hdir hname hfresh hwrite =>
    obtain ⟨m, hm, hino, h0, hlt, rdir⟩ := ref.of_dir hdir
    have hcases := NameSpace.call_cases R H s.names rdir hname hfresh hwrite (hino ▸ hlt)
      (hino ▸ h0)
    have hzones : sb.TakesZones s.zmap (s.names.call order sb dir op).zmap
        (s.names.call order sb dir op).newZones := s.names.call_takesZones dir op
    generalize hr : s.names.call order sb dir op = r at hcases hzones ⊢
    have hi : ∀ k, bit (s.imap 0) k = true → bit (r.imap 0) k = true := by
      rcases hcases with ⟨hkept, -⟩ | ⟨name, ino, h, hlinked, -⟩ | ⟨name, made, h, hlinked, -⟩
      · exact hkept.bits
      · exact fun k hk => (hlinked.bits k).mpr (.inr hk)
      · exact fun k hk => (hlinked.bits k).mpr (.inr hk)
    have hz : ∀ j < 8 * sb.sBlocksize, bit (s.zmap 0) j = true → bit (r.zmap 0) j = true :=
      fun j hj hbit => hzones.mono hj hbit
    cases hmade : madeDir op r with
    | some made =>
      have hdata : (s.called op r).data = { s.data with zmap := r.zmap, imap := r.imap } := by
        simp only [called, data, hmade]
      rw [hdata]
      exact .maps M I h hz hi
    | none =>
      by_cases hfile : ∃ inode pages, r.ret = some (.ok ()) ∧ r.inode = some (inode, pages)
      · obtain ⟨inode, pages, hret, hinode⟩ := hfile
        obtain ⟨hzero, hclear, hbit⟩ := NameSpace.call_file R H hfresh hr hmade hret hinode
        have hmaps : Stepped config sb behind bytes s.data
            { s.data with zmap := r.zmap, imap := s.data.imap } := .maps M I h hz fun _ hk => hk
        have hdata : (s.called op r).data =
            addInode { s.data with zmap := r.zmap, imap := s.data.imap } r.imap inode := by
          simp only [called, data, hmade, hret, hinode]
          rfl
        rw [hdata]
        exact hmaps.trans (.addInode M hmaps.inv hmaps.holds hzero hclear hi hbit)
      · have hdata : (s.called op r).data = { s.data with zmap := r.zmap, imap := r.imap } := by
          simp only [called, data, hmade]
          split
          · next hret hinode => exact absurd ⟨_, _, hret, hinode⟩ hfile
          · rfl
        rw [hdata]
        exact .maps M I h hz hi

include hread in
theorem PathStep.holds (h : s.Holds order config sb behind env spec)
    (hs : PathStep order sb behind env s op out s') :
    s'.Holds order config sb behind env (recordPath spec (op, out)) := by
  have R := M.reads
  have H := M.accepted
  obtain ⟨⟨t, hstands⟩, I, bytes, hdata, hspec⟩ := h
  cases hs with
  | @call op r names hs =>
    have hstep := PathSys.called_stepped M hstands.refines I hdata hs
    obtain ⟨⟨t', hstands'⟩, heffect⟩ := hstands.step R H hs
    have hnames : names = (s.called op r).names := by
      cases hs with
      | call => rfl
    rw [hnames] at hstands' heffect
    refine ⟨⟨t', hstands'⟩, hstep.inv, bytes, hstep.holds, fun path o v hv => ?_⟩
    obtain ⟨hcomp, ino, hw, hbyte⟩ := hspec path o v hv
    refine ⟨hcomp, ino, ?_, hbyte⟩
    -- a path that resolves keeps its number
    rcases heffect with ⟨-, hedge⟩ | ⟨name, inode, pages, -, -, -, g⟩
    · rw [hstands.walk_same hread hstands' hedge hcomp]
      exact hw
    · have p := (hstands.walk_iff hread hcomp).mp hw
      exact (hstands'.walk_iff hread hcomp).mpr (p.mono fun he => g.edge.mpr (.inl he))
  | @write path ino pos data n d hcomp hw hstep =>
    obtain ⟨⟨n', d'⟩, hwrite, heq⟩ := Option.map_eq_some_iff.mp hstep
    cases heq
    obtain ⟨-, w⟩ := writeLoop_spec M (Nat.le_refl _) I hdata hwrite
    rw [R.rootInode] at hw
    have hnames := PathSys.withData_names (s := s) w.grows.imap
    refine ⟨⟨t, hnames ▸ hstands.zmap _⟩, w.inv, _, w.holds, fun path' o v hv => ?_⟩
    rw [hnames]
    simp only [recordPath] at hv
    split at hv
    · next hin =>
      obtain ⟨rfl, hrange⟩ := hin
      exact ⟨hcomp, ino, hw, (if_pos ⟨rfl, hrange⟩).trans hv⟩
    · next hout =>
      obtain ⟨hcomp', ino', hw', hbyte⟩ := hspec path' o v hv
      refine ⟨hcomp', ino', hw', (if_neg ?_).trans hbyte⟩
      rintro ⟨rfl, hrange⟩
      -- two paths with one number are one path
      exact hout ⟨hstands.path_unique ((hstands.walk_iff hread hcomp').mp hw')
        ((hstands.walk_iff hread hcomp).mp hw), hrange⟩
  | @read path ino pos len got d hcomp hw hstep =>
    obtain ⟨inode, hi, hstep⟩ := Option.bind_eq_some_iff.mp hstep
    obtain ⟨⟨got', d'⟩, hread, heq⟩ := Option.map_eq_some_iff.mp hstep
    cases heq
    have g := readLoop_spec M (Nat.le_refl _) I hdata hread
    have hnames := PathSys.withData_names (s := s) g.grows.imap
    refine ⟨⟨t, hnames ▸ hstands.zmap _⟩, g.inv, bytes,
      hdata.grows M I g.inv g.grows g.dev, ?_⟩
    rw [hnames]
    exact hspec

end

section
variable (M : Mounted config sb) {image : Image} {menv : MkfsEnv}
  (hf : image.Formatted config menv)
include M hf

end

end Aufs
