import Aufs.Lib.LabelTree
import Aufs.Verify.Directory
import Mathlib.Data.Set.Insert

/-! The name space as a tree: every directory is a map, and a name is only ever added for a number
that was not used before. What a call does to the tree is `lose`, `link` or `mkdir`. -/

namespace Aufs
open Bytes

/-- A name other than `.` and `..`. -/
def ProperName (name : List Byte) : Prop := name ≠ ascii "." ∧ name ≠ ascii ".."

/-- A directory `d` as `minix_make_empty` starts it in `parent`. -/
def emptyDir (d parent : Nat) : DirMap where
  entries := [(ascii ".", d), (ascii "..", parent)]
  nodup := by
    change [ascii ".", ascii ".."].Nodup
    decide

/-- The numbers that are taken, and the directories by number; the root is directory 1. -/
structure NameTree where
  used : Set Nat
  dir : Nat → Option DirMap

namespace NameTree

variable {t t' : NameTree}

/-- Directory `d` has `name` for `ino`. -/
def Edge (t : NameTree) (d : Nat) (name : List Byte) (ino : Nat) : Prop :=
  ∃ m, t.dir d = some m ∧ (name, ino) ∈ m.entries ∧ ProperName name

def link (t : NameTree) (d : Nat) (m : DirMap) (name : List Byte) (ino : Nat)
    (h : name ∉ m.keys) : NameTree where
  used := insert ino t.used
  dir := Function.update t.dir d (some (m.append name ino h))

def addDir (t : NameTree) (d parent : Nat) : NameTree :=
  { t with dir := Function.update t.dir d (some (emptyDir d parent)) }

/-- What a call does; a successful `minix_mkdir` gives the number of the directory. -/
inductive Step : NameTree → Option Nat → NameTree → Prop
  | lose {t used} : t.used ⊆ used → Step t none { t with used }
  | link {t d m name ino} (h : name ∉ m.keys) : t.dir d = some m → ino ∉ t.used →
    Step t none (t.link d m name ino h)
  | mkdir {t d m name ino} (h : name ∉ m.keys) : t.dir d = some m → ino ∉ t.used →
    Step t (some ino) ((t.link d m name ino h).addDir ino d)

/-- The tree invariant. Of the root only the names below it are known. -/
structure IsTree (t : NameTree) : Prop where
  low : ∀ ino < 2, ino ∈ t.used
  dirUsed : t.dir d = some m → d ∈ t.used
  dots : t.dir d = some m → ascii "." ∈ m.keys ∧ ascii ".." ∈ m.keys
  child : t.Edge d name ino → 2 ≤ ino ∧ ino ∈ t.used
  once : t.Edge d name ino → t.Edge d' name' ino → d = d' ∧ name = name'
  self : d ≠ 1 → t.dir d = some m → ((ascii ".", ino) ∈ m.entries ↔ ino = d)
  parent : d ≠ 1 → t.dir d = some m → ((ascii "..", p) ∈ m.entries ↔ ∃ name, t.Edge p name d)
  path : t.dir d = some m → ∃ names, LabelPath t.Edge 1 names d

namespace IsTree

theorem path_unique (T : t.IsTree) (p : LabelPath t.Edge 1 names d)
    (p' : LabelPath t.Edge 1 names' d) : names = names' := by
  have hroot : ∀ {u name}, ¬t.Edge u name 1 := by
    intro u name he
    have := (T.child he).1
    omega
  exact LabelPath.unique hroot T.once p p'

theorem lose {used : Set Nat} (T : t.IsTree) (h : t.used ⊆ used) : IsTree { t with used } where
  low := fun ino hlt => h (T.low ino hlt)
  dirUsed := fun hd => h (T.dirUsed hd)
  dots := T.dots
  child := fun he => ⟨(T.child he).1, h (T.child he).2⟩
  once := T.once
  self := T.self
  parent := T.parent
  path := T.path

end IsTree

/-! ## Linking a new number -/

section
variable {d : Nat} {m : DirMap} {name : List Byte} {ino : Nat} {h : name ∉ m.keys}

theorem link_dir_self : (t.link d m name ino h).dir d = some (m.append name ino h) :=
  Function.update_self ..

theorem link_dir_of_ne (hu : u ≠ d) : (t.link d m name ino h).dir u = t.dir u :=
  Function.update_of_ne hu ..

theorem edge_link (hm : t.dir d = some m) (hname : ProperName name) :
    (t.link d m name ino h).Edge u n v ↔ t.Edge u n v ∨ u = d ∧ n = name ∧ v = ino := by
  constructor
  · rintro ⟨m', hm', hmem, hn⟩
    by_cases hu : u = d
    · subst hu
      rw [link_dir_self] at hm'
      cases hm'
      rcases List.mem_append.mp hmem with hmem | hmem
      · exact .inl ⟨m, hm, hmem, hn⟩
      · cases List.mem_singleton.mp hmem
        exact .inr ⟨rfl, rfl, rfl⟩
    · rw [link_dir_of_ne hu] at hm'
      exact .inl ⟨m', hm', hmem, hn⟩
  · rintro (⟨m', hm', hmem, hn⟩ | ⟨rfl, rfl, rfl⟩)
    · by_cases hu : u = d
      · subst hu
        cases hm.symm.trans hm'
        exact ⟨_, link_dir_self, List.mem_append_left _ hmem, hn⟩
      · exact ⟨m', (link_dir_of_ne hu).trans hm', hmem, hn⟩
    · exact ⟨_, link_dir_self, List.mem_append_right _ List.mem_cons_self, hname⟩

/-- Every directory keeps its entries under the other names. -/
theorem dir_link (hm : t.dir d = some m) (hu : (t.link d m name ino h).dir u = some m') :
    ∃ m₀, t.dir u = some m₀ ∧
      ∀ n v, n ≠ name → ((n, v) ∈ m'.entries ↔ (n, v) ∈ m₀.entries) := by
  by_cases hud : u = d
  · subst hud
    rw [link_dir_self] at hu
    cases hu
    refine ⟨m, hm, fun n v hn => ?_⟩
    change (n, v) ∈ m.entries ++ [(name, ino)] ↔ _
    rw [List.mem_append, List.mem_singleton, Prod.mk.injEq]
    exact ⟨fun hor => hor.resolve_right fun heq => hn heq.1, .inl⟩
  · rw [link_dir_of_ne hud] at hu
    exact ⟨m', hu, fun _ _ _ => Iff.rfl⟩

theorem IsTree.properName (T : t.IsTree) (hm : t.dir d = some m) (h : name ∉ m.keys) :
    ProperName name := by
  obtain ⟨hdot, hdotdot⟩ := T.dots hm
  exact ⟨fun heq => h (heq ▸ hdot), fun heq => h (heq ▸ hdotdot)⟩

theorem IsTree.link (T : t.IsTree) (hm : t.dir d = some m) (hino : ino ∉ t.used) :
    (t.link d m name ino h).IsTree := by
  have hname := T.properName hm h
  have hnew : ∀ {u n}, ¬t.Edge u n ino := fun he => hino (T.child he).2
  have hedge : ∀ {u n v}, (t.link d m name ino h).Edge u n v ↔
      t.Edge u n v ∨ u = d ∧ n = name ∧ v = ino := edge_link hm hname
  constructor
  case low => exact fun k hk => .inr (T.low k hk)
  case dirUsed =>
    intro u m' hu
    obtain ⟨m₀, hu₀, -⟩ := dir_link hm hu
    exact .inr (T.dirUsed hu₀)
  case dots =>
    intro u m' hu
    obtain ⟨m₀, hu₀, hsame⟩ := dir_link hm hu
    obtain ⟨hdot, hdotdot⟩ := T.dots hu₀
    rw [OrderedMap.mem_keys] at hdot hdotdot ⊢
    rw [OrderedMap.mem_keys]
    obtain ⟨v, hv⟩ := hdot
    obtain ⟨w, hw⟩ := hdotdot
    exact ⟨⟨v, (hsame _ _ hname.1.symm).mpr hv⟩, ⟨w, (hsame _ _ hname.2.symm).mpr hw⟩⟩
  case child =>
    intro u n v he
    rcases hedge.mp he with he | ⟨-, -, rfl⟩
    · exact ⟨(T.child he).1, .inr (T.child he).2⟩
    · refine ⟨?_, .inl rfl⟩
      by_contra hlt
      exact hino (T.low v (by omega))
  case once =>
    intro u n v u' n' he he'
    rcases hedge.mp he with hold | ⟨rfl, rfl, rfl⟩
    · rcases hedge.mp he' with hold' | ⟨rfl, rfl, rfl⟩
      · exact T.once hold hold'
      · exact absurd hold hnew
    · rcases hedge.mp he' with hold' | ⟨rfl, rfl, -⟩
      · exact absurd hold' hnew
      · exact ⟨rfl, rfl⟩
  case self =>
    intro u m' v h1 hu
    obtain ⟨m₀, hu₀, hsame⟩ := dir_link hm hu
    rw [hsame _ _ hname.1.symm]
    exact T.self h1 hu₀
  case parent =>
    intro u m' p h1 hu
    obtain ⟨m₀, hu₀, hsame⟩ := dir_link hm hu
    have hne : u ≠ ino := fun heq => hino (heq ▸ T.dirUsed hu₀)
    rw [hsame _ _ hname.2.symm, T.parent h1 hu₀]
    refine exists_congr fun n => ?_
    rw [hedge]
    exact ⟨.inl, fun hor => hor.resolve_right fun heq => hne heq.2.2⟩
  case path =>
    intro u m' hu
    obtain ⟨m₀, hu₀, -⟩ := dir_link hm hu
    obtain ⟨names, p⟩ := T.path hu₀
    exact ⟨names, p.mono fun he => hedge.mpr (.inl he)⟩

end

/-! ## Making the new number a directory -/

section
variable {d parent : Nat}

theorem addDir_dir_self : (t.addDir d parent).dir d = some (emptyDir d parent) :=
  Function.update_self ..

theorem addDir_dir_of_ne (hu : u ≠ d) : (t.addDir d parent).dir u = t.dir u :=
  Function.update_of_ne hu ..

theorem edge_addDir (hd : t.dir d = none) : (t.addDir d parent).Edge u n v ↔ t.Edge u n v := by
  constructor
  · rintro ⟨m, hm, hmem, hn⟩
    by_cases hu : u = d
    · subst hu
      rw [addDir_dir_self] at hm
      cases hm
      rcases List.mem_pair.mp hmem with heq | heq
      · exact absurd (congrArg Prod.fst heq) hn.1
      · exact absurd (congrArg Prod.fst heq) hn.2
    · rw [addDir_dir_of_ne hu] at hm
      exact ⟨m, hm, hmem, hn⟩
  · rintro ⟨m, hm, hmem, hn⟩
    have hu : u ≠ d := by
      rintro rfl
      cases hd.symm.trans hm
    exact ⟨m, (addDir_dir_of_ne hu).trans hm, hmem, hn⟩

/-- What holds of the new directory and of the old ones holds of all. -/
theorem dir_addDir {P : Nat → DirMap → Prop} (hnew : P d (emptyDir d parent))
    (hold : ∀ {u m}, t.dir u = some m → P u m) (hu : (t.addDir d parent).dir u = some m) :
    P u m := by
  by_cases hud : u = d
  · subst hud
    rw [addDir_dir_self] at hu
    cases hu
    exact hnew
  · rw [addDir_dir_of_ne hud] at hu
    exact hold hu

theorem mem_emptyDir_dot : (ascii ".", ino) ∈ (emptyDir d parent).entries ↔ ino = d := by
  have hne : ascii "." ≠ ascii ".." := by decide
  simp [emptyDir, hne]

theorem mem_emptyDir_dotdot : (ascii "..", ino) ∈ (emptyDir d parent).entries ↔ ino = parent := by
  have hne : ascii ".." ≠ ascii "." := by decide
  simp [emptyDir, hne]

theorem IsTree.addDir (T : t.IsTree) (hd : t.dir d = none) (he : t.Edge parent name d) :
    (t.addDir d parent).IsTree := by
  have hedge : ∀ {u n v}, (t.addDir d parent).Edge u n v ↔ t.Edge u n v := edge_addDir hd
  constructor
  case low => exact T.low
  case dirUsed =>
    intro u m hu
    exact dir_addDir (P := fun u _ => u ∈ t.used) (T.child he).2 T.dirUsed hu
  case dots =>
    intro u m hu
    refine dir_addDir (P := fun _ m => ascii "." ∈ m.keys ∧ ascii ".." ∈ m.keys) ?_ T.dots hu
    exact ⟨List.mem_cons_self, List.mem_cons_of_mem _ List.mem_cons_self⟩
  case child => exact fun h => T.child (hedge.mp h)
  case once => exact fun h h' => T.once (hedge.mp h) (hedge.mp h')
  case self =>
    intro u m ino h1 hu
    exact dir_addDir (P := fun u m => u ≠ 1 → ((ascii ".", ino) ∈ m.entries ↔ ino = u))
      (fun _ => mem_emptyDir_dot) (fun hu h1 => T.self h1 hu) hu h1
  case parent =>
    intro u m p h1 hu
    simp only [hedge]
    refine dir_addDir
      (P := fun u m => u ≠ 1 → ((ascii "..", p) ∈ m.entries ↔ ∃ name, t.Edge p name u))
      (fun _ => ?_) (fun hu h1 => T.parent h1 hu) hu h1
    rw [mem_emptyDir_dotdot]
    constructor
    · rintro rfl
      exact ⟨name, he⟩
    · rintro ⟨name', he'⟩
      exact (T.once he' he).1
  case path =>
    intro u m hu
    have hpath : ∀ {names v}, LabelPath t.Edge 1 names v →
        LabelPath (t.addDir d parent).Edge 1 names v := fun p => p.mono hedge.mpr
    refine dir_addDir (P := fun u _ => ∃ names, LabelPath (t.addDir d parent).Edge 1 names u)
      ?_ ?_ hu
    · obtain ⟨m, hm, -⟩ := id he
      obtain ⟨names, p⟩ := T.path hm
      exact ⟨_, hpath (p.snoc he)⟩
    · intro u m hu
      obtain ⟨names, p⟩ := T.path hu
      exact ⟨names, hpath p⟩

end

/-- Every step keeps the tree, and a directory that was made is there and is not the root. -/
theorem IsTree.step (T : t.IsTree) (hs : Step t made t') :
    t'.IsTree ∧ (∀ d, (t.dir d).isSome → (t'.dir d).isSome) ∧
      ∀ d, made = some d → d ≠ 1 ∧ (t'.dir d).isSome := by
  have hupd : ∀ {f : Nat → Option DirMap} {a v d}, (f d).isSome →
      (Function.update f a (some v) d).isSome := by
    intro f a v d hsome
    rw [Function.update_apply]
    split
    · rfl
    · exact hsome
  cases hs with
  | lose h => exact ⟨T.lose h, fun _ hd => hd, nofun⟩
  | link h hm hino => exact ⟨T.link hm hino, fun _ hd => hupd hd, nofun⟩
  | @mkdir d m name ino h hm hino =>
    have hnone : t.dir ino = none := by
      cases hdir : t.dir ino with
      | none => rfl
      | some m' => exact absurd (T.dirUsed hdir) hino
    have hne : ino ≠ d := by
      rintro rfl
      cases hnone.symm.trans hm
    have hnone' : (t.link d m name ino h).dir ino = none :=
      (link_dir_of_ne hne).trans hnone
    have he : (t.link d m name ino h).Edge d name ino :=
      (edge_link hm (T.properName hm h)).mpr (.inr ⟨rfl, rfl, rfl⟩)
    have T' := T.link (h := h) hm hino
    refine ⟨T'.addDir hnone' he, fun _ hd => hupd (hupd hd), ?_⟩
    rintro _ ⟨⟩
    refine ⟨?_, ?_⟩
    · have := (T'.child he).1
      omega
    · rw [addDir_dir_self]
      rfl

end NameTree
end Aufs
