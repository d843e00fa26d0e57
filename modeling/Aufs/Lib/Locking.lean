import Mathlib.Algebra.BigOperators.Group.Finset.Basic
import Mathlib.Data.Fintype.Basic
import Aufs.Lib.Trace

/-! Threads that share counted and locked resources. Each thread has a list of events to perform. A
list is disciplined if whoever performs it touches only what it has a reference to, changes only
what it has locked, holds one lock at a time and gives everything back. Threads with disciplined
lists break no rule whatever the order of their steps, and one of them can always go on. -/

namespace Locking

/-- Taking and dropping a reference, locking, and the accesses that need one or the other. -/
inductive Event (κ : Type*) where
  | get (k : κ)
  | lock (k : κ)
  | read (k : κ)
  | write (k : κ)
  | unlock (k : κ)
  | put (k : κ)
  deriving DecidableEq, Repr

variable {κ θ : Type*} [DecidableEq κ]

/-! ## One thread -/

/-- What a thread holds. -/
@[ext] structure Held (κ : Type*) where
  refs : κ → Nat
  locked : Option κ

namespace Held

def empty : Held κ := ⟨fun _ => 0, none⟩

/-- What a thread holds after an event, if the rules allow it. -/
def step (h : Held κ) : Event κ → Option (Held κ)
  | .get k => some { h with refs := Function.update h.refs k (h.refs k + 1) }
  | .lock k => if 0 < h.refs k ∧ h.locked = none then some { h with locked := some k } else none
  | .read k => if 0 < h.refs k then some h else none
  | .write k => if h.locked = some k then some h else none
  | .unlock k => if h.locked = some k then some { h with locked := none } else none
  | .put k =>
    if 0 < h.refs k ∧ h.locked ≠ some k then
      some { h with refs := Function.update h.refs k (h.refs k - 1) }
    else none

def run (h : Held κ) (es : List (Event κ)) : Option (Held κ) := es.foldlM step h

theorem run_cons {h h' : Held κ} {e : Event κ} {es : List (Event κ)} :
    h.run (e :: es) = some h' ↔ ∃ h₁, h.step e = some h₁ ∧ h₁.run es = some h' := by
  rw [run, List.foldlM_cons]
  exact Option.bind_eq_some_iff

theorem run_append {h h' : Held κ} {es es' : List (Event κ)} :
    h.run (es ++ es') = some h' ↔ ∃ h₁, h.run es = some h₁ ∧ h₁.run es' = some h' := by
  rw [run, List.foldlM_append]
  exact Option.bind_eq_some_iff

/-- One reference, to `k`. -/
def one (k : κ) (locked : Option κ) : Held κ := ⟨Function.update (fun _ => 0) k 1, locked⟩

variable {k : κ} {locked : Option κ}

@[simp] theorem empty_get : empty.step (.get k) = some (one k none) := rfl

@[simp] theorem one_lock : (one k none).step (.lock k) = some (one k (some k)) := by
  simp [step, one]

@[simp] theorem one_read : (one k locked).step (.read k) = some (one k locked) := by
  simp [step, one]

@[simp] theorem one_write : (one k (some k)).step (.write k) = some (one k (some k)) := by
  simp [step, one]

@[simp] theorem one_unlock : (one k (some k)).step (.unlock k) = some (one k none) := by
  simp [step, one]

@[simp] theorem one_put : (one k none).step (.put k) = some empty := by
  simp [step, one, empty]

end Held

/-- Events that begin and end with nothing held. -/
def Disciplined (es : List (Event κ)) : Prop := Held.empty.run es = some Held.empty

theorem Disciplined.append {es es' : List (Event κ)} (h : Disciplined es)
    (h' : Disciplined es') : Disciplined (es ++ es') := Held.run_append.mpr ⟨_, h, h'⟩

theorem Disciplined.nil : Disciplined ([] : List (Event κ)) := rfl

theorem Disciplined.flatMap {α : Type*} {f : α → List (Event κ)} (h : ∀ a, Disciplined (f a))
    (as : List α) : Disciplined (as.flatMap f) := by
  induction as with
  | nil => exact .nil
  | cons a as ih =>
    rw [List.flatMap_cons]
    exact (h a).append ih

/-! ## Many threads -/

/-- What each thread has still to do, how many references there are to each resource, and who has
locked it. -/
structure State (θ κ : Type*) where
  todo : θ → List (Event κ)
  refs : κ → Nat
  owner : κ → Option θ

/-- Nothing is held yet. -/
def State.start (todo : θ → List (Event κ)) : State θ κ := ⟨todo, fun _ => 0, fun _ => none⟩

section
variable [DecidableEq θ]

/-- Thread `t` performs its next event. Only a lock that is taken makes it wait. -/
inductive Step : State θ κ → θ → Event κ → State θ κ → Prop
  | get {s t k es} : s.todo t = .get k :: es →
    Step s t (.get k)
      { s with todo := Function.update s.todo t es
               refs := Function.update s.refs k (s.refs k + 1) }
  | lock {s t k es} : s.todo t = .lock k :: es → s.owner k = none →
    Step s t (.lock k)
      { s with todo := Function.update s.todo t es
               owner := Function.update s.owner k (some t) }
  | read {s t k es} : s.todo t = .read k :: es →
    Step s t (.read k) { s with todo := Function.update s.todo t es }
  | write {s t k es} : s.todo t = .write k :: es →
    Step s t (.write k) { s with todo := Function.update s.todo t es }
  | unlock {s t k es} : s.todo t = .unlock k :: es →
    Step s t (.unlock k)
      { s with todo := Function.update s.todo t es
               owner := Function.update s.owner k none }
  | put {s t k es} : s.todo t = .put k :: es →
    Step s t (.put k)
      { s with todo := Function.update s.todo t es
               refs := Function.update s.refs k (s.refs k - 1) }

end

/-- The event of `t` breaks no rule: what it touches is held, by `t` itself for a change, and a
resource that is dropped for good is not locked. -/
def State.Allows (s : State θ κ) (t : θ) : Event κ → Prop
  | .get _ => True
  | .lock k | .read k => 0 < s.refs k
  | .write k | .unlock k => s.owner k = some t
  | .put k => 0 < s.refs k ∧ (s.refs k = 1 → s.owner k = none)

/-- What the threads hold, each for itself, adds up to the state. -/
structure Inv [Fintype θ] (held : θ → Held κ) (s : State θ κ) : Prop where
  run : ∀ t, (held t).run (s.todo t) = some Held.empty
  owner : ∀ k t, s.owner k = some t ↔ (held t).locked = some k
  refs : ∀ k, s.refs k = ∑ t, (held t).refs k
  pinned : ∀ t k, (held t).locked = some k → 0 < (held t).refs k

section
variable [Fintype θ] [DecidableEq θ] {held : θ → Held κ} {s s' : State θ κ} {t : θ}

omit [DecidableEq κ] in
theorem sum_update (held : θ → Held κ) (t : θ) (h : Held κ) (k : κ) :
    (∑ u, (Function.update held t h u).refs k) + (held t).refs k =
      (∑ u, (held u).refs k) + h.refs k := by
  have hrest : ∑ u ∈ Finset.univ.erase t, (Function.update held t h u).refs k =
      ∑ u ∈ Finset.univ.erase t, (held u).refs k := by
    refine Finset.sum_congr rfl fun u hu => ?_
    rw [Function.update_of_ne (Finset.ne_of_mem_erase hu)]
  rw [← Finset.add_sum_erase _ _ (Finset.mem_univ t), hrest, Function.update_self,
    ← Finset.add_sum_erase _ (fun u => (held u).refs k) (Finset.mem_univ t)]
  omega

omit [DecidableEq κ] in
theorem refs_le_sum (held : θ → Held κ) (t : θ) (k : κ) :
    (held t).refs k ≤ ∑ u, (held u).refs k := by
  rw [← Finset.add_sum_erase _ (fun u => (held u).refs k) (Finset.mem_univ t)]
  exact Nat.le_add_right ..

omit [DecidableEq κ] in
theorem refs_add_le_sum (held : θ → Held κ) {t u : θ} (hne : u ≠ t) (k : κ) :
    (held t).refs k + (held u).refs k ≤ ∑ u, (held u).refs k := by
  rw [← Finset.add_sum_erase _ (fun u => (held u).refs k) (Finset.mem_univ t),
    ← Finset.add_sum_erase _ (fun u => (held u).refs k)
      (Finset.mem_erase.mpr ⟨hne, Finset.mem_univ u⟩)]
  omega

namespace Inv

omit [DecidableEq θ] in
theorem start {todo : θ → List (Event κ)} (h : ∀ t, Disciplined (todo t)) :
    Inv (fun _ => Held.empty) (State.start todo) where
  run := h
  owner k t := by
    constructor
    · intro h
      cases h
    · intro h
      cases h
  refs k := Finset.sum_const_zero.symm
  pinned t k h := by cases h

omit [DecidableEq θ] in
/-- What a thread does next breaks no rule. -/
theorem allows (I : Inv held s) (htodo : s.todo t = e :: es) : s.Allows t e := by
  have hrun := I.run t
  rw [htodo] at hrun
  obtain ⟨h₁, hstep, -⟩ := Held.run_cons.mp hrun
  have hpos : ∀ k, 0 < (held t).refs k → 0 < s.refs k := by
    intro k hk
    rw [I.refs k]
    exact Nat.lt_of_lt_of_le hk (by classical exact refs_le_sum held t k)
  cases e with
  | get => trivial
  | lock k =>
    rw [Held.step] at hstep
    split at hstep
    · next h => exact hpos k h.1
    · cases hstep
  | read k =>
    rw [Held.step] at hstep
    split at hstep
    · next h => exact hpos k h
    · cases hstep
  | write k | unlock k =>
    rw [Held.step] at hstep
    split at hstep
    · next h => exact (I.owner k t).mpr h
    · cases hstep
  | put k =>
    rw [Held.step] at hstep
    split at hstep
    · next h =>
      refine ⟨hpos k h.1, fun hone => ?_⟩
      -- whoever has locked it has another reference
      cases howner : s.owner k with
      | none => rfl
      | some u =>
        have hu := (I.owner k u).mp howner
        have hne : u ≠ t := by
          rintro rfl
          exact h.2 hu
        have hle : (held t).refs k + (held u).refs k ≤ s.refs k := by
          rw [I.refs k]
          classical exact refs_add_le_sum held hne k
        have hpin := I.pinned u k hu
        omega
    · cases hstep

/-- Thread `t` goes on with what it holds after its next event. -/
theorem update (I : Inv held s) {h₁ : Held κ} (hrun : h₁.run es = some Held.empty)
    (howner : ∀ k u, s'.owner k = some u ↔ (Function.update held t h₁ u).locked = some k)
    (hrefs : ∀ k, s'.refs k + (held t).refs k = s.refs k + h₁.refs k)
    (hpinned : ∀ k, h₁.locked = some k → 0 < h₁.refs k)
    (htodo : s'.todo = Function.update s.todo t es) : Inv (Function.update held t h₁) s' where
  run u := by
    rw [htodo]
    by_cases hu : u = t
    · rw [hu, Function.update_self, Function.update_self]
      exact hrun
    · rw [Function.update_of_ne hu, Function.update_of_ne hu]
      exact I.run u
  owner := howner
  refs k := by
    have hsum := sum_update held t h₁ k
    have hold := I.refs k
    have hnew := hrefs k
    omega
  pinned u k hu := by
    by_cases heq : u = t
    · rw [heq, Function.update_self] at hu ⊢
      exact hpinned k hu
    · rw [Function.update_of_ne heq] at hu ⊢
      exact I.pinned u k hu

/-- Thread `t` takes or gives back the lock of `k`, which no other thread has, and has no other. -/
theorem relock (I : Inv held s) {o : Option θ} {locked : Option κ}
    (hothers : ∀ u, u ≠ t → (held u).locked ≠ some k)
    (hself : ∀ k', k' ≠ k → (held t).locked ≠ some k')
    (hnew : o = some t ∧ locked = some k ∨ o = none ∧ locked = none) (k' : κ) (u : θ) :
    Function.update s.owner k o k' = some u ↔
      (Function.update held t { held t with locked } u).locked = some k' := by
  by_cases hu : u = t
  · rw [hu, Function.update_self]
    by_cases hk : k' = k
    · rw [hk, Function.update_self]
      rcases hnew with ⟨rfl, rfl⟩ | ⟨rfl, rfl⟩
      · exact iff_of_true rfl rfl
      · exact iff_of_false (Option.some_ne_none t).symm (Option.some_ne_none k).symm
    · rw [Function.update_of_ne hk, I.owner k' t]
      refine iff_of_false (hself k' hk) ?_
      rcases hnew with ⟨-, rfl⟩ | ⟨-, rfl⟩
      · exact fun heq => hk (Option.some.inj heq).symm
      · exact (Option.some_ne_none k').symm
  · rw [Function.update_of_ne hu]
    by_cases hk : k' = k
    · rw [hk, Function.update_self]
      refine iff_of_false ?_ (hothers u hu)
      rcases hnew with ⟨rfl, -⟩ | ⟨rfl, -⟩
      · exact fun heq => hu (Option.some.inj heq).symm
      · exact (Option.some_ne_none u).symm
    · rw [Function.update_of_ne hk]
      exact I.owner k' u

/-- Whatever a thread does next, the parts still add up. -/
theorem step (I : Inv held s) (hs : Step s t e s') : ∃ held', Inv held' s' := by
  have hnext : ∀ es, s.todo t = e :: es →
      ∃ h₁, (held t).step e = some h₁ ∧ h₁.run es = some Held.empty := by
    intro es htodo
    have hrun := I.run t
    rw [htodo] at hrun
    exact Held.run_cons.mp hrun
  -- the owners, if thread `t` keeps its lock
  have hkeep : ∀ h₁ : Held κ, h₁.locked = (held t).locked → ∀ k u,
      s.owner k = some u ↔ (Function.update held t h₁ u).locked = some k := by
    intro h₁ hlocked k u
    rw [I.owner k u]
    by_cases hu : u = t
    · rw [hu, Function.update_self, hlocked]
    · rw [Function.update_of_ne hu]
  cases hs with
  | @get k es htodo =>
    obtain ⟨h₁, hstep, hrun⟩ := hnext es htodo
    cases hstep
    refine ⟨_, I.update hrun (hkeep _ rfl) (fun k' => ?_) (fun k' hk' => ?_) rfl⟩
    · by_cases hk : k' = k
      · simp only [hk, Function.update_self]
        omega
      · simp only [Function.update_of_ne hk]
    · have := I.pinned t k' hk'
      by_cases hk : k' = k
      · simp only [hk, Function.update_self]
        omega
      · simpa only [Function.update_of_ne hk] using this
  | @lock k es htodo hfree =>
    obtain ⟨h₁, hstep, hrun⟩ := hnext es htodo
    rw [Held.step] at hstep
    split at hstep
    · next h =>
      cases hstep
      have hothers : ∀ u, u ≠ t → (held u).locked ≠ some k := by
        intro u _ hu
        cases hfree.symm.trans ((I.owner k u).mpr hu)
      have hself : ∀ k', k' ≠ k → (held t).locked ≠ some k' := by
        intro k' _ hk'
        cases h.2.symm.trans hk'
      refine ⟨_, I.update hrun (I.relock hothers hself (.inl ⟨rfl, rfl⟩)) (fun _ => rfl)
        (fun k' hk' => ?_) rfl⟩
      cases hk'
      exact h.1
    · cases hstep
  | @read k es htodo =>
    obtain ⟨h₁, hstep, hrun⟩ := hnext es htodo
    rw [Held.step] at hstep
    split at hstep
    · cases hstep
      exact ⟨_, I.update hrun (hkeep _ rfl) (fun _ => rfl) (I.pinned t) rfl⟩
    · cases hstep
  | @write k es htodo =>
    obtain ⟨h₁, hstep, hrun⟩ := hnext es htodo
    rw [Held.step] at hstep
    split at hstep
    · cases hstep
      exact ⟨_, I.update hrun (hkeep _ rfl) (fun _ => rfl) (I.pinned t) rfl⟩
    · cases hstep
  | @unlock k es htodo =>
    obtain ⟨h₁, hstep, hrun⟩ := hnext es htodo
    rw [Held.step] at hstep
    split at hstep
    · next h =>
      cases hstep
      have howner := (I.owner k t).mpr h
      have hothers : ∀ u, u ≠ t → (held u).locked ≠ some k := by
        intro u hne hu
        exact hne (Option.some.inj (((I.owner k u).mpr hu).symm.trans howner))
      have hself : ∀ k', k' ≠ k → (held t).locked ≠ some k' := by
        intro k' hne hk'
        exact hne (Option.some.inj (hk'.symm.trans h))
      exact ⟨_, I.update hrun (I.relock hothers hself (.inr ⟨rfl, rfl⟩)) (fun _ => rfl)
        (fun k' hk' => absurd hk'.symm (Option.some_ne_none k')) rfl⟩
    · cases hstep
  | @put k es htodo =>
    obtain ⟨h₁, hstep, hrun⟩ := hnext es htodo
    rw [Held.step] at hstep
    split at hstep
    · next h =>
      cases hstep
      refine ⟨_, I.update hrun (hkeep _ rfl) (fun k' => ?_) (fun k' hk' => ?_) rfl⟩
      · have hle := refs_le_sum held t k
        have hsum := I.refs k
        by_cases hk : k' = k
        · simp only [hk, Function.update_self]
          omega
        · simp only [Function.update_of_ne hk]
      · have hk : k' ≠ k := by
          rintro rfl
          exact h.2 hk'
        have hpin := I.pinned t k' hk'
        simpa only [Function.update_of_ne hk] using hpin
    · cases hstep

omit [DecidableEq θ] in
/-- With nothing left to do nothing is held. -/
theorem finished (I : Inv held s) (h : ∀ t, s.todo t = []) (k : κ) :
    s.refs k = 0 ∧ s.owner k = none := by
  have hempty : ∀ t, held t = Held.empty := by
    intro t
    have hrun := I.run t
    rw [h t] at hrun
    exact Option.some.inj hrun
  constructor
  · rw [I.refs k]
    refine Finset.sum_eq_zero fun t _ => ?_
    rw [hempty t]
    rfl
  · cases howner : s.owner k with
    | none => rfl
    | some u =>
      have hu := (I.owner k u).mp howner
      rw [hempty u] at hu
      cases hu

theorem progress (I : Inv held s) (h : s.todo t ≠ []) : ∃ u e s', Step s u e s' := by
  have hgo : ∀ u e es, s.todo u = e :: es → (∀ k, e = .lock k → s.owner k = none) →
      ∃ u e s', Step s u e s' := by
    intro u e es htodo hfree
    cases e with
    | get => exact ⟨_, _, _, .get htodo⟩
    | lock k => exact ⟨_, _, _, .lock htodo (hfree k rfl)⟩
    | read => exact ⟨_, _, _, .read htodo⟩
    | write => exact ⟨_, _, _, .write htodo⟩
    | unlock => exact ⟨_, _, _, .unlock htodo⟩
    | put => exact ⟨_, _, _, .put htodo⟩
  obtain ⟨e, es, htodo⟩ := List.exists_cons_of_ne_nil h
  by_cases hfree : ∀ k, e = .lock k → s.owner k = none
  · exact hgo t e es htodo hfree
  · -- it waits for a lock; whoever has that one waits for none
    obtain ⟨k, hwait⟩ := not_forall.mp hfree
    obtain ⟨rfl, hk⟩ := Classical.not_imp.mp hwait
    obtain ⟨u, hu⟩ := Option.ne_none_iff_exists'.mp hk
    have hlocked := (I.owner k u).mp hu
    have hrun := I.run u
    cases htodo' : s.todo u with
    | nil =>
      rw [htodo'] at hrun
      have hnone : held u = Held.empty := Option.some.inj hrun
      rw [hnone] at hlocked
      cases hlocked
    | cons e' es' =>
      refine hgo u e' es' htodo' fun k' heq => ?_
      rw [htodo', heq] at hrun
      obtain ⟨h₁, hstep, -⟩ := Held.run_cons.mp hrun
      rw [Held.step, hlocked] at hstep
      split at hstep
      · next h => cases h.2
      · cases hstep

end Inv

/-- Threads with disciplined lists, in any order of their steps: no step breaks a rule, there is
always a thread that can go on until all have finished, and then nothing is held. -/
theorem disciplined_run {todo : θ → List (Event κ)} (h : ∀ t, Disciplined (todo t))
    (run : Trace Step (State.start todo) hist s) :
    (∀ t e es, s.todo t = e :: es → s.Allows t e) ∧
    ((∀ t, s.todo t = []) ∨ ∃ t e s', Step s t e s') ∧
    ((∀ t, s.todo t = []) → ∀ k, s.refs k = 0 ∧ s.owner k = none) := by
  obtain ⟨held, I⟩ : ∃ held, Inv held s := by
    induction run with
    | nil => exact ⟨_, .start h⟩
    | snoc _ hstep ih =>
      obtain ⟨held, I⟩ := ih
      exact I.step hstep
  refine ⟨fun t e es htodo => I.allows htodo, ?_, I.finished⟩
  by_cases hdone : ∀ t, s.todo t = []
  · exact .inl hdone
  · obtain ⟨t, ht⟩ := not_forall.mp hdone
    exact .inr (I.progress ht)

end
end Locking
