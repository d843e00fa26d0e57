import Mathlib.Data.List.Basic
import Mathlib.Data.List.Induction

/-! Graphs with labelled edges seen from a root. Where no edge leads to the root and no two edges
lead to one node, a node has at most one path. -/

section
variable {κ ν : Type*}

/-- `LabelPath edge root ls v`: the labels `ls` lead from `root` to `v`. -/
inductive LabelPath (edge : ν → κ → ν → Prop) (root : ν) : List κ → ν → Prop
  | root : LabelPath edge root [] root
  | snoc {ls u l v} : LabelPath edge root ls u → edge u l v → LabelPath edge root (ls ++ [l]) v

namespace LabelPath

variable {edge edge' : ν → κ → ν → Prop} {root : ν}

theorem mono (hle : ∀ {u l v}, edge u l v → edge' u l v) (p : LabelPath edge root ls v) :
    LabelPath edge' root ls v := by
  induction p with
  | root => exact .root
  | snoc _ he ih => exact ih.snoc (hle he)

theorem unique (hroot : ∀ {u l}, ¬edge u l root)
    (honce : ∀ {u l u' l' v}, edge u l v → edge u' l' v → u = u' ∧ l = l')
    (p : LabelPath edge root ls v) (p' : LabelPath edge root ls' v) : ls = ls' := by
  induction p generalizing ls' with
  | root =>
    cases p' with
    | root => rfl
    | snoc _ he => exact absurd he hroot
  | snoc _ he ih =>
    cases p' with
    | root => exact absurd he hroot
    | snoc p' he' =>
      obtain ⟨rfl, rfl⟩ := honce he he'
      rw [ih p']

/-- What every edge's label has, every label of a path has. -/
theorem labels {ok : κ → Prop} (hedge : ∀ {u l v}, edge u l v → ok l)
    (p : LabelPath edge root ls v) : ∀ l ∈ ls, ok l := by
  induction p with
  | root => nofun
  | snoc _ he ih =>
    intro l hl
    rcases List.mem_append.mp hl with hl | hl
    · exact ih l hl
    · cases List.mem_singleton.mp hl
      exact hedge he

/-- A new edge to a node without edges makes one more path for each path to its start. -/
theorem grow_iff {d w : ν} {k : κ} (hout : ∀ {l v}, ¬edge w l v) (hd : d ≠ w)
    (hedge : ∀ {u l v}, edge' u l v ↔ edge u l v ∨ u = d ∧ l = k ∧ v = w) :
    LabelPath edge' root ls v ↔
      LabelPath edge root ls v ∨ ∃ p, LabelPath edge root p d ∧ ls = p ++ [k] ∧ v = w := by
  constructor
  · intro p
    induction p with
    | root => exact .inl .root
    | snoc _ he ih =>
      rcases ih with p | ⟨p, -, -, rfl⟩
      · rcases hedge.mp he with he | ⟨rfl, rfl, rfl⟩
        · exact .inl (p.snoc he)
        · exact .inr ⟨_, p, rfl, rfl⟩
      · rcases hedge.mp he with he | ⟨heq, -, -⟩
        · exact absurd he hout
        · exact absurd heq.symm hd
  · rintro (p | ⟨p, hp, rfl, rfl⟩)
    · exact p.mono fun he => hedge.mpr (.inl he)
    · exact (hp.mono fun he => hedge.mpr (.inl he)).snoc (hedge.mpr (.inr ⟨rfl, rfl, rfl⟩))

/-! ## Walking -/

/-- Where the labels lead from `v`, each followed by `step`. -/
def walk (step : ν → κ → Option ν) : ν → List κ → Option ν
  | v, [] => some v
  | v, l :: ls => (step v l).bind fun u => walk step u ls

variable {step : ν → κ → Option ν}

theorem walk_append (v : ν) :
    walk step v (ls ++ ls') = (walk step v ls).bind fun u => walk step u ls' := by
  induction ls generalizing v with
  | nil => rfl
  | cons l ls ih =>
    rw [List.cons_append, walk, walk, Option.bind_assoc]
    exact congrArg _ (funext ih)

/-- Where `step` follows the edges, walking follows the paths. -/
theorem walk_eq_some_iff {ok : κ → Prop}
    (hstep : ∀ {u l v}, ok l → (step u l = some v ↔ edge u l v)) (hls : ∀ l ∈ ls, ok l) :
    walk step root ls = some v ↔ LabelPath edge root ls v := by
  constructor
  · intro h
    induction ls using List.reverseRecOn generalizing v with
    | nil =>
      cases h
      exact .root
    | append_singleton ls l ih =>
      rw [walk_append] at h
      obtain ⟨u, hu, h⟩ := Option.bind_eq_some_iff.mp h
      obtain ⟨w, hw, h⟩ := Option.bind_eq_some_iff.mp h
      cases h
      have p := ih (fun l hl => hls l (List.mem_append_left _ hl)) hu
      exact p.snoc ((hstep (hls l (List.mem_append_right _ List.mem_cons_self))).mp hw)
  · intro p
    induction p with
    | root => rfl
    | snoc _ he ih =>
      rw [walk_append, ih fun l hl => hls l (List.mem_append_left _ hl), Option.bind_some, walk,
        (hstep (hls _ (List.mem_append_right _ List.mem_cons_self))).mpr he]
      rfl

end LabelPath
end
