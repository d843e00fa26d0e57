import Aufs.Kern.DirPages
import Aufs.Verify.Directory

/-! The discipline of page references and page locks in `kern/dir.c`, on every path, also those that
end with an error: every page is dropped by whoever took it, changed only under its lock, and no
second lock is taken. So calls that run side by side never wait for each other for ever. -/

namespace Aufs
open Bytes Word Locking

variable {order : ByteOrder} {v : DirView} {name : List Byte}

/-! ## Each call -/

/-- The search ends with nothing held, or with the page of the entry that it found. -/
theorem findEntryLoopEvents_spec (order : ByteOrder) (v : DirView) (name : List Byte)
    (k n : Nat) :
    (findEntryLoopEvents order v name k n).2.map Prod.snd =
      minixFindEntryLoop order v.env v.dir v.content name k n ∧
    Held.empty.run (findEntryLoopEvents order v name k n).1 =
      some (match (findEntryLoopEvents order v name k n).2 with
        | none => .empty
        | some (n, _) => .one (v.key n) none) := by
  induction k generalizing n with
  | zero => exact ⟨rfl, rfl⟩
  | succ k ih =>
    rw [findEntryLoopEvents, minixFindEntryLoop]
    cases dirGetPage v.env v.dir v.content n with
    | error e => exact ih (n + 1)
    | ok page =>
      simp only
      cases minixFindEntryPage order name page (minixLastByte v.dir n) (PAGE_SIZE / AUFS_DIR_SIZE)
        0 with
      | some p => exact ⟨rfl, by simp [Held.run]⟩
      | none =>
        refine ⟨(ih (n + 1)).1, Held.run_append.mpr ⟨.empty, by simp [Held.run], (ih (n + 1)).2⟩⟩

theorem inodeByNameEvents_spec (order : ByteOrder) (v : DirView) (name : List Byte) :
    (inodeByNameEvents order v name).2 =
      minixInodeByName order v.env v.dir v.content name ∧
    Disciplined (inodeByNameEvents order v name).1 := by
  obtain ⟨hfound, hrun⟩ := findEntryLoopEvents_spec order v name (dirPages v.dir) 0
  unfold inodeByNameEvents minixInodeByName minixFindEntry
  rw [← hfound]
  generalize findEntryLoopEvents order v name (dirPages v.dir) 0 = r at hrun
  obtain ⟨es, none | ⟨n, page, p⟩⟩ := r
  · exact ⟨rfl, hrun⟩
  · exact ⟨rfl, Held.run_append.mpr ⟨_, hrun, by simp [Held.run]⟩⟩

/-- Entries lie inside their page. -/
theorem minixAddLinkPage_lt (order : ByteOrder) (name : List Byte) (page : Mem) (dirEnd k p : Nat)
    (h : minixAddLinkPage order name page dirEnd k p = .gotIt q) :
    q < p + k * AUFS_DIR_SIZE := by
  induction k generalizing p with
  | zero => cases h
  | succ k ih =>
    have hsize : 0 < AUFS_DIR_SIZE := by decide
    rw [Nat.succ_mul]
    rw [minixAddLinkPage] at h
    split at h
    · cases h
      omega
    · split at h
      · cases h
        omega
      · split at h
        · cases h
        · have := ih _ h
          omega

theorem addLinkLoopEvents_spec (order : ByteOrder) (v : DirView) (name : List Byte) (k n : Nat) :
    (addLinkLoopEvents order v name k n).2 =
      minixAddLinkLoop order v.env v.dir v.content name k n ∧
    Held.empty.run (addLinkLoopEvents order v name k n).1 =
      some (match (addLinkLoopEvents order v name k n).2 with
        | .gotIt pos => .one (v.key (pos / PAGE_SIZE)) (some (v.key (pos / PAGE_SIZE)))
        | _ => .empty) := by
  induction k generalizing n with
  | zero => exact ⟨rfl, rfl⟩
  | succ k ih =>
    rw [addLinkLoopEvents, minixAddLinkLoop]
    cases dirGetPage v.env v.dir v.content n with
    | error e => exact ⟨rfl, rfl⟩
    | ok page =>
      simp only
      cases hscan : minixAddLinkPage order name page (minixLastByte v.dir n)
        (PAGE_SIZE / AUFS_DIR_SIZE) 0 with
      | gotIt p =>
        have hlt : p < PAGE_SIZE := by
          have h := minixAddLinkPage_lt order name page _ _ 0 hscan
          have hpage : PAGE_SIZE / AUFS_DIR_SIZE * AUFS_DIR_SIZE = PAGE_SIZE := rfl
          omega
        have hdiv : (n * PAGE_SIZE + p) / PAGE_SIZE = n := by
          rw [Nat.mul_comm, Nat.mul_add_div (by decide), Nat.div_eq_of_lt hlt, Nat.add_zero]
        refine ⟨rfl, Held.run_append.mpr ⟨.one (v.key n) (some (v.key n)), by simp [Held.run], ?_⟩⟩
        simp only [hdiv]
        split
        · simp [Held.run]
        · rfl
      | exist => exact ⟨rfl, by simp [Held.run]⟩
      | next =>
        refine ⟨(ih (n + 1)).1, Held.run_append.mpr ⟨.empty, by simp [Held.run], (ih (n + 1)).2⟩⟩

theorem addLinkEvents_disciplined (order : ByteOrder) (sb : Sb) (v : DirView)
    (name : List Byte) : Disciplined (addLinkEvents order sb v name) := by
  obtain ⟨-, hrun⟩ := addLinkLoopEvents_spec order v name (dirPages v.dir + 1) 0
  unfold addLinkEvents
  generalize addLinkLoopEvents order v name (dirPages v.dir + 1) 0 = r at hrun
  obtain ⟨es, pos | e | _⟩ := r
  · simp only
    split
    · exact Held.run_append.mpr ⟨_, hrun, by simp [Held.run]⟩
    · exact Held.run_append.mpr ⟨_, hrun, by simp [Held.run]⟩
  · exact hrun
  · exact hrun

theorem makeEmptyEvents_disciplined (sb : Sb) (v : DirView) :
    Disciplined (makeEmptyEvents sb v) := by
  unfold makeEmptyEvents
  split
  · exact .nil
  · split
    · simp [Disciplined, Held.run]
    · simp [Disciplined, Held.run]

theorem readdirLoopEvents_spec (order : ByteOrder) (v : DirView) (k n offset : Nat)
    (r : Readdir) :
    (readdirLoopEvents order v k n offset r).2 =
      minixReaddirLoop order v.env v.dir v.content k n offset r ∧
    Disciplined (readdirLoopEvents order v k n offset r).1 := by
  induction k generalizing n offset r with
  | zero => exact ⟨rfl, .nil⟩
  | succ k ih =>
    have hvisit : Disciplined [.get (v.key n), .read (v.key n), .put (v.key n)] := by
      simp [Disciplined, Held.run]
    rw [readdirLoopEvents, minixReaddirLoop]
    cases dirGetPage v.env v.dir v.content n with
    | error e => exact ih (n + 1) 0 r
    | ok page =>
      simp only
      split
      · exact ⟨rfl, hvisit⟩
      · obtain ⟨hret, hevents⟩ := ih (n + 1) 0 (minixReaddirPage order page
          (minixLastByte v.dir n) (PAGE_SIZE / AUFS_DIR_SIZE) offset r)
        exact ⟨hret, hvisit.append hevents⟩

theorem readdirEvents_spec (order : ByteOrder) (v : DirView) (pos room : Nat) :
    (readdirEvents order v pos room).2 =
      minixReaddir order v.env v.dir v.content pos room ∧
    Disciplined (readdirEvents order v pos room).1 := by
  unfold readdirEvents minixReaddir
  simp only
  split
  · exact ⟨rfl, .nil⟩
  · exact readdirLoopEvents_spec ..

theorem PageCall.disciplined (order : ByteOrder) (sb : Sb) (call : PageCall) :
    Disciplined (call.events order sb) := by
  cases call with
  | inodeByName v name => exact (inodeByNameEvents_spec order v name).2
  | addLink v name => exact addLinkEvents_disciplined order sb v name
  | makeEmpty v => exact makeEmptyEvents_disciplined sb v
  | readdir v pos room => exact (readdirEvents_spec order v pos room).2

/-! ## Calls side by side -/

/-- Any number of threads call the functions of `kern/dir.c`, each any number of times, whatever the
directories hold and whichever pages cannot be read, in any order of their steps. No page is touched
without a reference, changed or unlocked but by the thread that has locked it, or dropped for good
while it is locked; some thread can always go on until all are done, and then no page is held. What
the calls return is what the functions return. -/
theorem dir_pages_disciplined {θ : Type} [Fintype θ] [DecidableEq θ] (order : ByteOrder) (sb : Sb)
    (calls : θ → List PageCall) {hist : List (θ × PageEvent)} {s : State θ PageKey}
    (run : Trace Step (State.start fun t => (calls t).flatMap (PageCall.events order sb)) hist s) :
    (∀ t e es, s.todo t = e :: es → s.Allows t e) ∧
    ((∀ t, s.todo t = []) ∨ ∃ t e s', Step s t e s') ∧
    ((∀ t, s.todo t = []) → ∀ key, s.refs key = 0 ∧ s.owner key = none) ∧
    (∀ v name, (inodeByNameEvents order v name).2 =
      minixInodeByName order v.env v.dir v.content name) ∧
    (∀ v name k n, (addLinkLoopEvents order v name k n).2 =
      minixAddLinkLoop order v.env v.dir v.content name k n) ∧
    ∀ v pos room, (readdirEvents order v pos room).2 =
      minixReaddir order v.env v.dir v.content pos room := by
  have hcalls : ∀ t, Disciplined ((calls t).flatMap (PageCall.events order sb)) :=
    fun t => .flatMap (PageCall.disciplined order sb) (calls t)
  obtain ⟨hallows, hprogress, hfinished⟩ := disciplined_run hcalls run
  exact ⟨hallows, hprogress, hfinished, fun v name => (inodeByNameEvents_spec order v name).1,
    fun v name k n => (addLinkLoopEvents_spec order v name k n).1,
    fun v pos room => (readdirEvents_spec order v pos room).1⟩

/-- A directory without entries. -/
def blankView : DirView where
  env := quietEnv
  zmap := fun _ _ => 0
  dir := newInode fun _ => 0
  content := fun _ => 0

/-- Two threads at the same page, the first of which has locked it. -/
theorem dir_pages_blankView :
    ∃ s : State (Fin 2) PageKey,
      Trace Step (State.start fun _ : Fin 2 =>
          [PageCall.makeEmpty blankView].flatMap (PageCall.events .little ⟨.zero, 4096⟩))
        [(0, .get (0, 0)), (0, .lock (0, 0)), (1, .get (0, 0))] s ∧
      ((∀ t, s.todo t = []) ∨ ∃ t e s', Step s t e s') := by
  have hevents : [PageCall.makeEmpty blankView].flatMap (PageCall.events .little ⟨.zero, 4096⟩) =
      [.get (0, 0), .lock (0, 0), .unlock (0, 0), .put (0, 0)] := rfl
  have run : Trace Step (State.start fun _ : Fin 2 =>
      [PageCall.makeEmpty blankView].flatMap (PageCall.events .little ⟨.zero, 4096⟩))
      ([] ++ [(0, .get (0, 0))] ++ [(0, .lock (0, 0))] ++ [(1, .get (0, 0))]) _ :=
    ((Trace.nil.snoc (.get hevents)).snoc (.lock rfl rfl)).snoc (.get hevents)
  exact ⟨_, run, (dir_pages_disciplined .little ⟨.zero, 4096⟩
    (fun _ : Fin 2 => [.makeEmpty blankView]) run).2.1⟩

end Aufs
