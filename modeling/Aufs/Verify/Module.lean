import Aufs.Kern.Module
import Aufs.Lib.Trace
import Mathlib.Data.List.Perm.Basic

/-! The module and its inodes in memory over any number of loads, failed ones among them. Freed
inodes go back to the slab cache in callbacks that run at any time; `rcu_barrier` sees to it that
all have run before the cache is destroyed. -/

namespace Aufs

/-- What the kernel does with the module; the arguments say what the calls that it makes return. -/
inductive ModuleOp where
  | load (kmemCacheCreate : Bool) (registerFilesystem : Except Errno Unit)
  | unload (unregisterFilesystem : Except Errno Unit)
  | mount (sb : Nat)
  | unmount (sb : Nat)
  | alloc (sb : Nat) (got : Option Nat)
  | free (sb x : Nat)
  | callback (x : Nat)

namespace ModuleOp

/-- A module that is loaded is not loaded again, and one that is in use not unloaded; super blocks
are of a type that is registered, inodes of a super block that is mounted; before a super block goes
its inodes have been freed, each once. The slab allocator does not hand out what is in use. -/
def Allowed (m : AufsModule) : ModuleOp → Prop
  | load _ _ => m.loaded = false
  | unload _ => m.loaded = true ∧ m.mounted = []
  | mount sb => m.registered = true ∧ sb ∉ m.mounted
  | unmount sb => sb ∈ m.mounted ∧ ∀ x, (sb, x) ∉ m.inodes
  | alloc sb got => sb ∈ m.mounted ∧ ∀ x ∈ got, ∀ objects ∈ m.aufsInodeCache, x ∉ objects
  | free sb x => (sb, x) ∈ m.inodes
  | callback x => x ∈ m.callbacks

def run (m : AufsModule) : ModuleOp → Except ModuleFault AufsModule
  | load create register => do
    let (ret, m) ← m.aufsInit create register
    return { m with loaded := ret.isOk }
  | unload unregister => do
    let m ← m.aufsFini unregister
    return { m with loaded := false }
  | mount sb => .ok { m with mounted := sb :: m.mounted }
  | unmount sb => .ok { m with mounted := m.mounted.erase sb }
  | alloc sb got => Prod.snd <$> m.aufsInodeAlloc sb got
  | free sb x => .ok (m.aufsInodeFree sb x)
  | callback x => m.aufsFreeCallback x

end ModuleOp

def ModuleStep (m : AufsModule) (op : ModuleOp) (_ : Unit) (m' : AufsModule) : Prop :=
  op.Allowed m ∧ op.run m = .ok m'

namespace AufsModule

/-- The objects in use are the inodes in memory and those whose callback has not run. -/
structure Inv (m : AufsModule) : Prop where
  registered : m.registered = m.loaded
  unloaded : m.loaded = false → m = .unloaded
  inodes : ∀ sb x, (sb, x) ∈ m.inodes → sb ∈ m.mounted
  cache : m.loaded = true → ∃ objects, m.aufsInodeCache = some objects ∧
    objects.Perm (m.inodes.map Prod.snd ++ m.callbacks)
  nodup : (m.inodes.map Prod.snd ++ m.callbacks).Nodup

variable {m m' : AufsModule}

/-- The callbacks give their objects back, one by one. -/
theorem rcuBarrier_eq (hcache : m.aufsInodeCache = some objects)
    (hperm : objects.Perm (m.callbacks ++ rest)) :
    ∃ objects', m.rcuBarrier =
        .ok { m with callbacks := [], aufsInodeCache := some objects' } ∧
      objects'.Perm rest := by
  obtain ⟨cs, hcs⟩ : ∃ cs, m.callbacks = cs := ⟨_, rfl⟩
  unfold rcuBarrier
  rw [hcs] at hperm ⊢
  induction cs generalizing m objects with
  | nil =>
    refine ⟨objects, ?_, hperm⟩
    cases m
    cases hcs
    cases hcache
    rfl
  | cons c cs ih =>
    have hmem : c ∈ objects := hperm.mem_iff.mpr (List.mem_append_left _ List.mem_cons_self)
    have hperm' : (objects.erase c).Perm (cs ++ rest) := by
      have h := hperm.erase c
      rwa [List.cons_append, List.erase_cons_head] at h
    have hfree : m.aufsFreeCallback c =
        .ok { m with callbacks := cs, aufsInodeCache := some (objects.erase c) } := by
      simp only [aufsFreeCallback, kmemCacheFree, hcache, hcs, List.erase_cons_head, if_pos hmem]
    rw [List.foldlM_cons, hfree]
    exact ih rfl hperm' rfl

/-- A cache whose objects have all been freed can be destroyed. -/
theorem aufsInodeCacheDestroy_eq (hcache : m.aufsInodeCache = some objects)
    (hperm : objects.Perm m.callbacks) :
    m.aufsInodeCacheDestroy = .ok { m with callbacks := [], aufsInodeCache := none } := by
  rw [← List.append_nil m.callbacks] at hperm
  obtain ⟨objects', hbarrier, hnil⟩ := rcuBarrier_eq hcache hperm
  have hempty : objects' = [] := hnil.eq_nil
  rw [aufsInodeCacheDestroy, hbarrier, hempty]
  rfl

theorem Inv.init : Inv .unloaded where
  registered := rfl
  unloaded _ := rfl
  inodes _ _ h := absurd h List.not_mem_nil
  cache h := absurd h Bool.false_ne_true
  nodup := .nil

/-- What is in use is in use of a loaded module. -/
theorem Inv.loaded_of_ne (h : m.Inv) (hne : m ≠ .unloaded) : m.loaded = true := by
  cases hl : m.loaded with
  | true => rfl
  | false => exact absurd (h.unloaded hl) hne

theorem Inv.load (h : m.Inv) (hl : m.loaded = false) (create : Bool)
    (register : Except Errno Unit) :
    ∃ m', (ModuleOp.load create register).run m = .ok m' ∧ m'.Inv := by
  cases h.unloaded hl
  match create, register with
  | false, _ => exact ⟨.unloaded, rfl, .init⟩
  | true, .error e =>
    refine ⟨.unloaded, ?_, .init⟩
    rfl
  | true, .ok () =>
    refine ⟨{ AufsModule.unloaded with
      aufsInodeCache := some [], registered := true, loaded := true }, rfl, ?_⟩
    exact {
      registered := rfl
      unloaded := fun h => absurd h.symm Bool.false_ne_true
      inodes := fun _ _ h => absurd h List.not_mem_nil
      cache := fun _ => ⟨[], rfl, .nil⟩
      nodup := .nil }

/-- With no super block left there is no inode in memory, and the cache can go. -/
theorem Inv.unload (h : m.Inv) (hl : m.loaded = true) (hm : m.mounted = [])
    (unregister : Except Errno Unit) :
    (ModuleOp.unload unregister).run m = .ok .unloaded := by
  have hinodes : m.inodes = [] := by
    refine List.eq_nil_iff_forall_not_mem.mpr fun p hp => ?_
    have hsb := h.inodes p.1 p.2 hp
    rw [hm] at hsb
    exact List.not_mem_nil hsb
  obtain ⟨objects, hcache, hperm⟩ := h.cache hl
  rw [hinodes] at hperm
  have hfini : m.aufsFini unregister =
      .ok { m with registered := false, callbacks := [], aufsInodeCache := none } :=
    aufsInodeCacheDestroy_eq hcache hperm
  rw [ModuleOp.run, hfini]
  change Except.ok _ = Except.ok _
  rw [hinodes, hm]
  rfl

theorem Inv.mount (h : m.Inv) (hr : m.registered = true) (sb : Nat) :
    Inv { m with mounted := sb :: m.mounted } where
  registered := h.registered
  unloaded hl := absurd (h.registered.symm.trans hr) (by rw [hl]; exact Bool.false_ne_true)
  inodes _ _ hx := List.mem_cons_of_mem _ (h.inodes _ _ hx)
  cache := h.cache
  nodup := h.nodup

theorem Inv.loaded_of_mem (h : m.Inv) (hsb : sb ∈ m.mounted) : m.loaded = true := by
  refine h.loaded_of_ne fun heq => ?_
  rw [heq] at hsb
  exact List.not_mem_nil hsb

theorem Inv.unmount (h : m.Inv) (hsb : sb ∈ m.mounted) (hfree : ∀ x, (sb, x) ∉ m.inodes) :
    Inv { m with mounted := m.mounted.erase sb } where
  registered := h.registered
  unloaded hl := absurd (h.loaded_of_mem hsb) (by rw [hl]; exact Bool.false_ne_true)
  inodes sb' x hx := by
    have hne : sb' ≠ sb := fun heq => hfree x (heq ▸ hx)
    exact (List.mem_erase_of_ne hne).mpr (h.inodes sb' x hx)
  cache := h.cache
  nodup := h.nodup

theorem Inv.alloc (h : m.Inv) (hsb : sb ∈ m.mounted)
    (hgot : ∀ x ∈ got, ∀ objects ∈ m.aufsInodeCache, x ∉ objects) :
    ∃ m', (ModuleOp.alloc sb got).run m = .ok m' ∧ m'.Inv := by
  have hl := h.loaded_of_mem hsb
  obtain ⟨objects, hcache, hperm⟩ := h.cache hl
  cases got with
  | none =>
    have halloc : m.aufsInodeAlloc sb none = .ok (none, m) := by
      simp only [aufsInodeAlloc, hcache]
    exact ⟨m, by rw [ModuleOp.run, halloc]; rfl, h⟩
  | some x =>
    have hx : x ∉ objects := hgot x rfl objects hcache
    have halloc : m.aufsInodeAlloc sb (some x) = .ok (some x, { m with
        aufsInodeCache := some (x :: objects), inodes := (sb, x) :: m.inodes }) := by
      simp only [aufsInodeAlloc, hcache]
    refine ⟨_, by rw [ModuleOp.run, halloc]; rfl, ?_⟩
    exact {
      registered := h.registered
      unloaded := fun hl' => absurd (hl.symm.trans hl').symm Bool.false_ne_true
      inodes := fun sb' x' hx' => by
        cases hx' with
        | head => exact hsb
        | tail _ hx' => exact h.inodes sb' x' hx'
      cache := fun _ => ⟨x :: objects, rfl, hperm.cons x⟩
      nodup := List.nodup_cons.mpr ⟨fun hmem => hx (hperm.mem_iff.mpr hmem), h.nodup⟩ }

/-- An inode that is freed stays an object in use until its callback. -/
theorem Inv.free (h : m.Inv) (hx : (sb, x) ∈ m.inodes) : (m.aufsInodeFree sb x).Inv := by
  have hmove : (m.inodes.map Prod.snd ++ m.callbacks).Perm
      ((m.inodes.erase (sb, x)).map Prod.snd ++ (m.callbacks ++ [x])) := by
    have herase : (m.inodes.map Prod.snd).Perm (x :: (m.inodes.erase (sb, x)).map Prod.snd) :=
      (List.perm_cons_erase hx).map Prod.snd
    refine (herase.append_right _).trans ?_
    rw [List.cons_append, ← List.append_assoc]
    exact (List.perm_append_singleton _ _).symm
  have hl := h.loaded_of_mem (h.inodes _ _ hx)
  exact {
    registered := h.registered
    unloaded := fun hl' => absurd (hl.symm.trans hl').symm Bool.false_ne_true
    inodes := fun sb' x' hx' => h.inodes sb' x' (List.mem_of_mem_erase hx')
    cache := fun _ =>
      have ⟨objects, hcache, hperm⟩ := h.cache hl
      ⟨objects, hcache, hperm.trans hmove⟩
    nodup := hmove.nodup_iff.mp h.nodup }

theorem Inv.callback (h : m.Inv) (hx : x ∈ m.callbacks) :
    ∃ m', m.aufsFreeCallback x = .ok m' ∧ m'.Inv := by
  have hl : m.loaded = true := by
    refine h.loaded_of_ne fun heq => ?_
    rw [heq] at hx
    exact List.not_mem_nil hx
  obtain ⟨objects, hcache, hperm⟩ := h.cache hl
  have hmem : x ∈ objects := hperm.mem_iff.mpr (List.mem_append_right _ hx)
  have hnot : x ∉ m.inodes.map Prod.snd := fun h' =>
    (List.nodup_append.mp h.nodup).2.2 x h' x hx rfl
  have herase := List.erase_append_right m.callbacks hnot
  refine ⟨{ m with callbacks := m.callbacks.erase x, aufsInodeCache := some (objects.erase x) },
    ?_, ?_⟩
  · simp only [aufsFreeCallback, kmemCacheFree, hcache, if_pos hmem]
  · exact {
      registered := h.registered
      unloaded := fun hl' => absurd (hl.symm.trans hl').symm Bool.false_ne_true
      inodes := h.inodes
      cache := fun _ => ⟨objects.erase x, rfl, herase ▸ hperm.erase x⟩
      nodup := herase ▸ h.nodup.erase x }

/-- No call that is allowed fails, and each keeps the invariant. -/
theorem Inv.run (h : m.Inv) (op : ModuleOp) (hop : op.Allowed m) :
    ∃ m', op.run m = .ok m' ∧ m'.Inv := by
  cases op with
  | load create register => exact h.load hop create register
  | unload unregister => exact ⟨_, h.unload hop.1 hop.2 unregister, .init⟩
  | mount sb => exact ⟨_, rfl, h.mount hop.1 sb⟩
  | unmount sb => exact ⟨_, rfl, h.unmount hop.1 hop.2⟩
  | alloc sb got => exact h.alloc hop.1 hop.2
  | free sb x => exact ⟨_, rfl, h.free hop⟩
  | callback x => exact h.callback hop

theorem Inv.step (h : m.Inv) (hstep : ModuleStep m op o m') : m'.Inv := by
  obtain ⟨m₁, hrun, hm₁⟩ := h.run op hstep.1
  cases hrun.symm.trans hstep.2
  exact hm₁

end AufsModule

/-- Loads and unloads, mounts, inodes and callbacks in any order: no inode is freed without the
cache it is from and the cache is never destroyed with an inode in it. A load that fails and an
unload, whatever `unregister_filesystem` returns, leave nothing behind; while the module is loaded,
the objects in use are the inodes in memory and those freed whose callback has yet to run. -/
theorem module_safe (run : Trace ModuleStep .unloaded hist m) :
    (∀ op : ModuleOp, op.Allowed m → ∃ m', op.run m = .ok m') ∧
    (m.loaded = false → m = .unloaded) ∧
    (m.loaded = true → ∃ objects, m.aufsInodeCache = some objects ∧ objects.Nodup ∧
      objects.Perm (m.inodes.map Prod.snd ++ m.callbacks)) := by
  have h : m.Inv := run.invariant .init fun hinv hstep => hinv.step hstep
  refine ⟨fun op hop => ?_, h.unloaded, fun hl => ?_⟩
  · obtain ⟨m', hrun, -⟩ := h.run op hop
    exact ⟨m', hrun⟩
  · obtain ⟨objects, hcache, hperm⟩ := h.cache hl
    exact ⟨objects, hcache, hperm.nodup_iff.mpr h.nodup, hperm⟩

/-- The module once its only inode has been freed and its only super block has gone; the callback
has yet to run. -/
def pendingModule : AufsModule where
  aufsInodeCache := some [7]
  registered := true
  loaded := true
  mounted := []
  inodes := []
  callbacks := [7]

theorem pendingModule_run :
    Trace ModuleStep .unloaded
      [(.load true (.ok ()), ()), (.mount 0, ()), (.alloc 0 (some 7), ()), (.free 0 7, ()),
        (.unmount 0, ())] pendingModule := by
  have hload : ModuleStep .unloaded (.load true (.ok ())) ()
      { pendingModule with aufsInodeCache := some [], callbacks := [] } := ⟨rfl, rfl⟩
  have hmount : ModuleStep { pendingModule with aufsInodeCache := some [], callbacks := [] }
      (.mount 0) ()
      { pendingModule with aufsInodeCache := some [], callbacks := [], mounted := [0] } :=
    ⟨⟨rfl, List.not_mem_nil⟩, rfl⟩
  have halloc : ModuleStep
      { pendingModule with aufsInodeCache := some [], callbacks := [], mounted := [0] }
      (.alloc 0 (some 7)) ()
      { pendingModule with mounted := [0], inodes := [(0, 7)], callbacks := [] } := by
    refine ⟨⟨List.mem_singleton_self 0, ?_⟩, rfl⟩
    rintro x - _ ⟨⟩
    exact List.not_mem_nil
  have hfree : ModuleStep { pendingModule with mounted := [0], inodes := [(0, 7)], callbacks := [] }
      (.free 0 7) () { pendingModule with mounted := [0] } :=
    ⟨List.mem_singleton_self (0, 7), rfl⟩
  have hunmount : ModuleStep { pendingModule with mounted := [0] } (.unmount 0) () pendingModule :=
    ⟨⟨List.mem_singleton_self 0, fun _ => List.not_mem_nil⟩, rfl⟩
  exact ((((Trace.single hload).snoc hmount).snoc halloc).snoc hfree).snoc hunmount

/-- Unloading waits for the callback. -/
theorem module_safe_pending :
    ∃ m, (ModuleOp.unload (.ok ())).run pendingModule = .ok m ∧ m = .unloaded ∧
      ∃ objects, pendingModule.aufsInodeCache = some objects ∧ objects.Perm [7] := by
  obtain ⟨hrun, -, hcache⟩ := module_safe pendingModule_run
  obtain ⟨m, hm⟩ := hrun (.unload (.ok ())) ⟨rfl, rfl⟩
  obtain ⟨objects, hobjects, -, hperm⟩ := hcache rfl
  have hunload : (ModuleOp.unload (.ok ())).run pendingModule = .ok .unloaded := rfl
  cases hunload.symm.trans hm
  exact ⟨_, hm, rfl, objects, hobjects, hperm⟩

end Aufs
