import Aufs.Verify.PathWalk
import Aufs.Verify.Readdir

/-! Listings beside creating calls. Any number of open directories are listed, a few entries at a
time, while calls create names in them; a listing gives each name once, with the number that a
lookup finds, and at its end it has given every name. -/

namespace Aufs
open Bytes Word

variable {order : ByteOrder} {config : Configuration} {sb : Sb}

/-- A name space with its open directories: the directory of each, and `ctx->pos`. -/
structure OpenDirs where
  names : NameSpace
  listing : Nat → Option (Nat × Nat)

inductive ListingOp where
  | call (op : NameiOp)
  | opendir (fd d : Nat)
  | readdir (fd : Nat) (env : DirEnv) (room : Nat)

inductive ListingOut where
  | called (r : NameiCall)
  | opened
  | entries (es : List (List Byte × Nat))

/-- A call that creates, a directory opened or rewound, or a call of `minix_readdir` that finds
every page readable. -/
inductive ListingStep (order : ByteOrder) (sb : Sb) :
    OpenDirs → ListingOp → ListingOut → OpenDirs → Prop
  | call {s op r names} : NameiStep order sb s.names op r names →
    ListingStep order sb s (.call op) (.called r) { s with names }
  | opendir {s fd d dir} : s.names.dirs d = some dir →
    ListingStep order sb s (.opendir fd d) .opened
      { s with listing := Function.update s.listing fd (some (d, 0)) }
  | readdir {s fd env room d pos dir} : s.listing fd = some (d, pos) →
    s.names.dirs d = some dir → (∀ n, env.readMappingPage n = .ok ()) →
    ListingStep order sb s (.readdir fd env room)
      (.entries (minixReaddir order env dir.inode dir.content pos room).emitted)
      { s with
        listing := Function.update s.listing fd
          (some (d, (minixReaddir order env dir.inode dir.content pos room).pos)) }

/-- What listing `fd` has given after one more operation. -/
def recordListing (fd : Nat) (es : List (List Byte × Nat)) :
    ListingOp × ListingOut → List (List Byte × Nat)
  | (.opendir fd' _, _) => if fd' = fd then [] else es
  | (.readdir fd' _ _, .entries es') => if fd' = fd then es ++ es' else es
  | _ => es

/-- What listing `fd` has given since it was opened. -/
def listed (fd : Nat) (hist : List (ListingOp × ListingOut)) : List (List Byte × Nat) :=
  hist.foldl (recordListing fd) []

/-- `es` are the entries of directory `d` in front of `pos`. -/
def NameSpace.Front (order : ByteOrder) (s : NameSpace) (d pos : Nat)
    (es : List (List Byte × Nat)) : Prop :=
  ∃ g all, pos = g * AUFS_DIR_SIZE ∧ s.entries order d = some all ∧ g ≤ all.length ∧
    all.take g = es

section
variable (R : sb.Reads config) (H : config.Accepted) {s s' : NameSpace} {t : NameTree}
include R H

/-- Entries are only ever added behind those that a directory has, one for a name that is given in
it. -/
theorem NameSpace.Stands.entries_grow (h : s.Stands order t) (hs : NameiStep order sb s op r s')
    (hes : s.entries order d = some es) :
    ∃ more, s'.entries order d = some (es ++ more) ∧
      ∀ name inode pages, d = op.dir → op.kind.name = some name → r.ret = some (.ok ()) →
        r.inode = some (inode, pages) → more = [(name, inode.iIno)] := by
  cases hs with
  | @call dir hdir hname hfresh hwrite =>
    obtain ⟨m, -, hino, h0, hlt, rdir⟩ := h.refines.of_dir hdir
    generalize hr : s.call order sb dir op = r
    rcases call_unlinked_or_linked R H s rdir hname hfresh hwrite (hino ▸ hlt) (hino ▸ h0) hr with
      hkept | ⟨name, inode, pages, hlinks⟩
    · refine ⟨[], ?_, fun name inode pages _ hname hret => ?_⟩
      · rw [hkept.after hdir, hes, List.append_nil]
      · rcases hkept.fails with hnone | hne
        · cases hnone.symm.trans hname
        · exact absurd hret hne
    · have hused : inode.iIno ∉ t.used := h.refines.not_used hlinks.clear
      have hnone : s.dirs inode.iIno = none := by
        cases hd : s.dirs inode.iIno with
        | none => rfl
        | some dir' =>
          obtain ⟨m', hm', -⟩ := h.refines.of_dir hd
          exact absurd (h.tree.dirUsed hm') hused
      have hne : op.dir ≠ inode.iIno := by
        intro heq
        rw [heq, hnone] at hdir
        cases hdir
      have hd : d ≠ inode.iIno := by
        rintro rfl
        rw [entries, hnone] at hes
        cases hes
      have hafter := (hlinks.after hne hnone).1 d hd
      split at hafter
      · next heq =>
        have hes' : s.entries order op.dir = some (dirEntries order dir.inode dir.content) :=
          congrArg (Option.map _) hdir
        rw [heq] at hes
        cases hes'.symm.trans hes
        refine ⟨_, hafter, fun name' inode' pages' _ hname' _ hgiven' => ?_⟩
        cases hlinks.names.symm.trans hname'
        cases hlinks.given.symm.trans hgiven'
        rfl
      · next hother =>
        refine ⟨[], ?_, fun _ _ _ heq => absurd heq hother⟩
        rw [hafter, hes, List.append_nil]

theorem NameSpace.Front.call (f : s.Front order d pos es) (h : s.Stands order t)
    (hs : NameiStep order sb s op r s') : s'.Front order d pos es := by
  obtain ⟨g, all, hpos, hall, hle, rfl⟩ := f
  obtain ⟨more, hmore, -⟩ := h.entries_grow R H hs hall
  refine ⟨g, _, hpos, hmore, ?_, List.take_append_of_le_length hle⟩
  rw [List.length_append]
  exact Nat.le_trans hle (Nat.le_add_right ..)

end

section
variable {s : NameSpace} {t : NameTree} {env : DirEnv}

/-- What a call of `minix_readdir` gives of a directory's entries. -/
theorem NameSpace.Stands.readdir (h : s.Stands order t) (hdir : s.dirs d = some dir)
    (hall : s.entries order d = some all) (hg : g ≤ all.length)
    (hread : ∀ n, env.readMappingPage n = .ok ()) (room : Nat) :
    (minixReaddir order env dir.inode dir.content (g * AUFS_DIR_SIZE) room).emitted =
        (all.drop g).take room ∧
      (minixReaddir order env dir.inode dir.content (g * AUFS_DIR_SIZE) room).pos =
        (g + min room (all.length - g)) * AUFS_DIR_SIZE := by
  have hall' : s.entries order d = some (dirEntries order dir.inode dir.content) :=
    congrArg (Option.map _) hdir
  cases hall'.symm.trans hall
  obtain ⟨m, -, -, -, -, rdir⟩ := h.refines.of_dir hdir
  rw [dirEntries_length] at hg ⊢
  obtain ⟨hemit, hpos⟩ := minixReaddir_spec rdir.wellFormed hread hg room
  refine ⟨?_, hpos⟩
  have hend : g + min room (dir.inode.iSize / AUFS_DIR_SIZE - g) ≤
      dir.inode.iSize / AUFS_DIR_SIZE := by omega
  -- the slots up to the last that is given are those in front of `g` and those given
  have hsplit : (dirEntries order dir.inode dir.content).take _ = _ := dirEntries_take hend
  rw [List.take_add, dirEntries_take hg, ← slots_append, Nat.zero_add] at hsplit
  rw [hemit, ← List.append_cancel_left hsplit, List.take_eq_take_iff, List.length_drop,
    dirEntries_length]
  omega

/-- A call of `minix_readdir` gives the next entries; given room, none only at the end. -/
theorem NameSpace.Front.readdir (f : s.Front order d pos es) (h : s.Stands order t)
    (hdir : s.dirs d = some dir) (hread : ∀ n, env.readMappingPage n = .ok ()) (room : Nat) :
    s.Front order d (minixReaddir order env dir.inode dir.content pos room).pos
        (es ++ (minixReaddir order env dir.inode dir.content pos room).emitted) ∧
      (1 ≤ room → (minixReaddir order env dir.inode dir.content pos room).emitted = [] →
        s.entries order d = some es) := by
  obtain ⟨g, all, rfl, hall, hle, rfl⟩ := f
  obtain ⟨hemit, hpos⟩ := h.readdir hdir hall hle hread room
  rw [hemit, hpos]
  refine ⟨⟨_, all, rfl, hall, by omega, ?_⟩, fun hroom hnil => ?_⟩
  · rw [← List.take_add, List.take_eq_take_iff]
    omega
  · rcases List.take_eq_nil_iff.mp hnil with hzero | hdrop
    · omega
    · rw [hall, List.take_of_length_le (List.drop_eq_nil_iff.mp hdrop)]

end

/-! ## Runs -/

/-- The names stand for a tree, and each listing has given the entries in front of its position. -/
structure OpenDirs.Sound (order : ByteOrder) (s : OpenDirs)
    (given : Nat → List (List Byte × Nat)) : Prop where
  stands : ∃ t, s.names.Stands order t
  front : ∀ fd d pos, s.listing fd = some (d, pos) → s.names.Front order d pos (given fd)

/-- One listing moves, the others stay. -/
theorem OpenDirs.Sound.setListing {s : OpenDirs} {given given' : Nat → List (List Byte × Nat)}
    (S : s.Sound order given) (h : s.names.Front order d pos (given' fd))
    (hsame : ∀ fd', fd ≠ fd' → given' fd' = given fd') :
    OpenDirs.Sound order { s with listing := Function.update s.listing fd (some (d, pos)) }
      given' := by
  refine ⟨S.stands, fun fd' d' pos' hfd => ?_⟩
  rcases PartialMap.update_eq_some hfd with ⟨rfl, heq⟩ | ⟨hne, hfd⟩
  · cases heq
    exact h
  · rw [hsame fd' (Ne.symm hne)]
    exact S.front fd' d' pos' hfd

theorem ListingStep.sound {s s' : OpenDirs} {given : Nat → List (List Byte × Nat)}
    (R : sb.Reads config) (H : config.Accepted) (S : s.Sound order given)
    (hs : ListingStep order sb s op out s') :
    s'.Sound order fun fd => recordListing fd (given fd) (op, out) := by
  obtain ⟨t, h⟩ := S.stands
  cases hs with
  | call hs =>
    exact ⟨(h.step R H hs).1, fun fd d pos hfd => (S.front fd d pos hfd).call R H h hs⟩
  | @opendir fd' d' dir hdir =>
    have hfront : s.names.Front order d' 0 [] :=
      ⟨0, _, (Nat.zero_mul _).symm, congrArg (Option.map _) hdir, Nat.zero_le _, rfl⟩
    exact S.setListing (by rwa [recordListing, if_pos rfl]) fun _ hne => if_neg hne
  | @readdir fd' env room d' pos' dir hold hdir hread =>
    have hfront := ((S.front _ _ _ hold).readdir h hdir hread room).1
    exact S.setListing (by rwa [recordListing, if_pos rfl]) fun _ hne => if_neg hne

theorem ListingStep.run_sound {s₀ s : OpenDirs} (R : sb.Reads config) (H : config.Accepted)
    (S₀ : s₀.Sound order fun _ => []) (t : Trace (ListingStep order sb) s₀ hist s) :
    s.Sound order fun fd => listed fd hist := by
  induction t with
  | nil => exact S₀
  | snoc _ hs ih =>
    simp only [listed, List.foldl_append]
    exact hs.sound R H ih

/-- In every run of creating calls and listings from an image just mounted: a listing has given no
name twice, and every name with the number that `minix_lookup` finds for it; it can always be taken
up; and when a call with room for an entry gives none, the names that it has given are those that a
lookup finds, also those that were created while it ran. -/
theorem listings_match_lookups {deviceSize : String → Nat} {argv : List String} {menv : MkfsEnv}
    {fuel : Nat} {dev : Device} {image : Image} {hist : List (ListingOp × ListingOut)}
    {s₀ : NameSpace} {s : OpenDirs} {env : DirEnv} (hargs : parseArgs deviceSize argv = .ok config)
    (himage : mkfs menv fuel config dev = some image) (hsb : sb = aufsFillSb image.superBlock)
    (hmount : s₀.Mounts sb image)
    (t : Trace (ListingStep order sb) { names := s₀, listing := fun _ => none } hist s)
    (hread : ∀ n, env.readMappingPage n = .ok ()) (hfd : s.listing fd = some (d, pos)) :
    ((listed fd hist).map Prod.fst).Nodup ∧
    (∀ name ino, Component name → (name, ino) ∈ listed fd hist →
      s.names.lookup order env d name = some ino) ∧
    (∀ env' room, (∀ n, env'.readMappingPage n = .ok ()) →
      ∃ es s', ListingStep order sb s (.readdir fd env' room) (.entries es) s') ∧
    ∀ env' room s', 1 ≤ room → ListingStep order sb s (.readdir fd env' room) (.entries []) s' →
      ∀ name ino, Component name →
        (s.names.lookup order env d name = some ino ↔ (name, ino) ∈ listed fd hist) := by
  have H := accepted_of_parseArgs hargs
  have hf := mkfs_formatted H himage
  have R : sb.Reads config := hsb ▸ aufsFillSb_reads H hf
  have S : s.Sound order fun fd => listed fd hist := by
    refine ListingStep.run_sound R H ⟨hmount.stands R H hf order, fun fd d pos hnone => ?_⟩ t
    cases hnone
  obtain ⟨tree, h⟩ := S.stands
  have f := S.front fd d pos hfd
  have hlookup : ∀ name ino, Component name →
      (s.names.lookup order env d name = some ino ↔ s.names.Edge order d name ino) := by
    intro name ino hname
    rw [h.refines.lookup_iff hread hname, h.refines.edge_eq]
    rfl
  obtain ⟨g, all, -, hall, -, htake⟩ := S.front fd d pos hfd
  obtain ⟨dir, hdir, rfl⟩ := Option.map_eq_some_iff.mp hall
  obtain ⟨m, -, -, -, -, rdir⟩ := h.refines.of_dir hdir
  refine ⟨?_, fun name ino hname hmem => ?_,
    fun env' room hread' => ⟨_, _, .readdir hfd hdir hread'⟩,
    fun env' room s' hroom hs name ino hname => ?_⟩
  · rw [← htake, rdir.entries, List.map_take]
    exact m.nodup.sublist (List.take_sublist ..)
  · rw [← htake] at hmem
    rw [hlookup name ino hname, NameSpace.edge_iff]
    exact ⟨_, hall, List.mem_of_mem_take hmem, hname.proper⟩
  · have hlast : s.names.entries order d = some (listed fd hist) := by
      generalize hout : ([] : List (List Byte × Nat)) = out at hs
      cases hs with
      | readdir hfd' hdir' hread' =>
        cases hfd.symm.trans hfd'
        exact (f.readdir h hdir' hread' room).2 hroom hout.symm
    rw [hlookup name ino hname, NameSpace.edge_iff, hlast]
    constructor
    · rintro ⟨es, hes, hmem, -⟩
      cases hes
      exact hmem
    · exact fun hmem => ⟨_, rfl, hmem, hname.proper⟩

/-- A call at slot `g` with every page readable. -/
theorem ListingStep.gives_entries {s : OpenDirs} {t : NameTree} (h : s.names.Stands order t)
    (hfd : s.listing fd = some (d, g * AUFS_DIR_SIZE)) (hall : s.names.entries order d = some all)
    (hg : g ≤ all.length) (room : Nat) :
    ListingStep order sb s (.readdir fd quietEnv room) (.entries ((all.drop g).take room))
      { s with
        listing := Function.update s.listing fd
          (some (d, (g + min room (all.length - g)) * AUFS_DIR_SIZE)) } := by
  have hread : ∀ n, quietEnv.readMappingPage n = .ok () := fun _ => rfl
  obtain ⟨dir, hdir, -⟩ := Option.map_eq_some_iff.mp hall
  obtain ⟨hemit, hpos⟩ := h.readdir hdir hall hg hread room
  rw [← hemit, ← hpos]
  exact .readdir hfd hdir hread

/-- The root directory of an image just mounted, listed while a directory is made in it. -/
theorem listings_match_lookups_root :
    ∃ image s₀ r s s', mkfs rootEnv 1 eightZones (blankDevice (2 ^ 20)) = some image ∧
      s₀.Mounts (aufsFillSb image.superBlock) image ∧
      Trace (ListingStep .little (aufsFillSb image.superBlock))
        { names := s₀, listing := fun _ => none }
        [(.opendir 0 1, .opened), (.readdir 0 quietEnv 1, .entries [(ascii ".", 2 ^ 24)]),
          (.call mkdirOp, .called r),
          (.readdir 0 quietEnv 5, .entries [(ascii "..", 2 ^ 24), (ascii "a", 2)])] s ∧
      ListingStep .little (aufsFillSb image.superBlock) s (.readdir 0 quietEnv 5) (.entries []) s' ∧
      s.names.lookup .little quietEnv 1 (ascii "a") = some 2 ∧
      s.names.lookup .little quietEnv 1 (ascii "b") = none := by
  have H := accepted_of_parseArgs eightZones_parsed
  obtain ⟨image, himage, hf, R⟩ := exists_image H rootEnv (blankDevice (2 ^ 20))
  obtain ⟨s₀, hmount⟩ := NameSpace.exists_mounts H R hf
  obtain ⟨root, content, m, hdirs, -, -, hm, rdir⟩ := hmount.exists_root R H hf .little
  have hdir : s₀.dirs 1 = some ⟨root, content⟩ := by
    rw [hdirs]
    rfl
  have hes : s₀.entries .little 1 = some [(ascii ".", 2 ^ 24), (ascii "..", 2 ^ 24)] := by
    rw [NameSpace.entries, hdir]
    exact congrArg some (rdir.entries.trans hm)
  obtain ⟨t₀, h₀⟩ := hmount.stands R H hf .little
  obtain ⟨r, names, hcall, hmade⟩ := mkdirOp_step ⟨H, R, eightZones_fit R⟩ hf hmount
  obtain ⟨⟨t₁, h₁⟩, -⟩ := h₀.step R H hcall
  obtain ⟨more, hes', hadded⟩ := h₀.entries_grow R H hcall hes
  obtain ⟨made, hmade', hino⟩ := exists_madeDir hmade
  obtain ⟨hret, hinode⟩ := madeDir_eq_some hmade'
  obtain rfl : more = [(ascii "a", 2)] := by
    rw [← hino]
    exact hadded _ _ _ rfl rfl hret hinode
  -- one entry, the call, the other two, and none
  let s₁ : OpenDirs := { names := s₀, listing := Function.update (fun _ => none) 0 (some (1, 0)) }
  let s₂ : OpenDirs := { names, listing := Function.update s₁.listing 0 (some (1, AUFS_DIR_SIZE)) }
  let s₃ : OpenDirs :=
    { names, listing := Function.update s₂.listing 0 (some (1, 3 * AUFS_DIR_SIZE)) }
  have hopen : ListingStep .little (aufsFillSb image.superBlock)
      { names := s₀, listing := fun _ => none } (.opendir 0 1) .opened s₁ := .opendir hdir
  have hself₁ : s₁.listing 0 = some (1, 0 * AUFS_DIR_SIZE) := rfl
  have hself₂ : s₂.listing 0 = some (1, 1 * AUFS_DIR_SIZE) := rfl
  have hself₃ : s₃.listing 0 = some (1, 3 * AUFS_DIR_SIZE) := rfl
  have hfirst : ListingStep .little (aufsFillSb image.superBlock) s₁ (.readdir 0 quietEnv 1)
      (.entries [(ascii ".", 2 ^ 24)]) { s₁ with listing := s₂.listing } :=
    .gives_entries h₀ hself₁ hes (Nat.zero_le _) 1
  have hmkdir : ListingStep .little (aufsFillSb image.superBlock)
      { s₁ with listing := s₂.listing } (.call mkdirOp) (.called r) s₂ := .call hcall
  have hothers : ListingStep .little (aufsFillSb image.superBlock) s₂ (.readdir 0 quietEnv 5)
      (.entries [(ascii "..", 2 ^ 24), (ascii "a", 2)]) s₃ :=
    .gives_entries h₁ hself₂ hes' (show 1 ≤ 3 by decide) 5
  have hlast : ListingStep .little (aufsFillSb image.superBlock) s₃ (.readdir 0 quietEnv 5)
      (.entries []) _ :=
    .gives_entries h₁ hself₃ hes' (Nat.le_refl 3) 5
  have t := (((Trace.single hopen).snoc hfirst).snoc hmkdir).snoc hothers
  have hread : ∀ n, quietEnv.readMappingPage n = .ok () := fun _ => rfl
  obtain ⟨-, -, -, hend⟩ := listings_match_lookups eightZones_parsed himage rfl hmount t hread
    hself₃
  have hfound : ∀ name ino, Component name →
      (s₃.names.lookup .little quietEnv 1 name = some ino ↔
        (name, ino) ∈ [(ascii ".", 2 ^ 24), (ascii "..", 2 ^ 24), (ascii "a", 2)]) :=
    hend quietEnv 5 _ (by decide) hlast
  have ha : Component (ascii "a") := ⟨⟨by decide, by decide, by decide⟩, by decide, by decide⟩
  have hb : Component (ascii "b") := ⟨⟨by decide, by decide, by decide⟩, by decide, by decide⟩
  refine ⟨image, s₀, r, s₃, _, himage, hmount, t, hlast, (hfound _ 2 ha).mpr (by decide), ?_⟩
  cases hlookup : s₃.names.lookup .little quietEnv 1 (ascii "b") with
  | none => rfl
  | some ino =>
    have hmem : ascii "b" ∈ [ascii ".", ascii "..", ascii "a"] :=
      List.mem_map_of_mem (f := Prod.fst) ((hfound _ ino hb).mp hlookup)
    exact absurd hmem (by decide)

end Aufs
