import Aufs.Kern.Super

/-! Loading and unloading the module, and the life of its inodes in memory (the end of
`kern/super.c`). An inode comes from a slab cache of the module and goes back to it in a callback,
some time after it has been freed. -/

namespace Aufs

/-- What the module and the kernel know of it: the slab cache, with the objects that are in use;
whether the file system type is registered and the module loaded; the super blocks; the inodes in
memory, each with its super block; and the callbacks that `call_rcu` has queued, each with its
inode. -/
structure AufsModule where
  aufsInodeCache : Option (List Nat)
  registered : Bool
  loaded : Bool
  mounted : List Nat
  inodes : List (Nat × Nat)
  callbacks : List Nat
  deriving DecidableEq, Repr

/-- What the slab allocator cannot survive: no cache, an object that is not in use, or objects that
are still in use when their cache is destroyed. -/
inductive ModuleFault where
  | nullCache
  | foreignObject
  | objectsRemaining
  deriving DecidableEq, Repr

namespace AufsModule

/-- Before the module is loaded. -/
def unloaded : AufsModule where
  aufsInodeCache := none
  registered := false
  loaded := false
  mounted := []
  inodes := []
  callbacks := []

/-- `kmem_cache_free` -/
def kmemCacheFree (m : AufsModule) (x : Nat) : Except ModuleFault AufsModule :=
  match m.aufsInodeCache with
  | none => .error .nullCache
  | some objects =>
    if x ∈ objects then .ok { m with aufsInodeCache := some (objects.erase x) }
    else .error .foreignObject

/-- `aufs_inode_alloc`; `got` is the object that `kmem_cache_alloc` finds, if it finds one. -/
def aufsInodeAlloc (m : AufsModule) (sb : Nat) (got : Option Nat) :
    Except ModuleFault (Option Nat × AufsModule) :=
  match m.aufsInodeCache, got with
  | none, _ => .error .nullCache
  | some _, none => .ok (none, m)
  | some objects, some x =>
    .ok (some x, { m with aufsInodeCache := some (x :: objects), inodes := (sb, x) :: m.inodes })

/-- `aufs_free_callback` -/
def aufsFreeCallback (m : AufsModule) (x : Nat) : Except ModuleFault AufsModule :=
  kmemCacheFree { m with callbacks := m.callbacks.erase x } x

/-- `aufs_inode_free` of an inode of `sb`, which the VFS forgets. -/
def aufsInodeFree (m : AufsModule) (sb x : Nat) : AufsModule :=
  { m with inodes := m.inodes.erase (sb, x), callbacks := m.callbacks ++ [x] }

/-- `aufs_inode_cache_create` -/
def aufsInodeCacheCreate (m : AufsModule) (kmemCacheCreate : Bool) :
    Except Errno Unit × AufsModule :=
  if kmemCacheCreate then (.ok (), { m with aufsInodeCache := some [] })
  else (.error .enomem, { m with aufsInodeCache := none })

/-- `rcu_barrier` waits for the callbacks that are queued. -/
def rcuBarrier (m : AufsModule) : Except ModuleFault AufsModule :=
  m.callbacks.foldlM aufsFreeCallback m

/-- `aufs_inode_cache_destroy` -/
def aufsInodeCacheDestroy (m : AufsModule) : Except ModuleFault AufsModule := do
  let m ← m.rcuBarrier
  match m.aufsInodeCache with
  | some (_ :: _) => .error .objectsRemaining
  | _ => return { m with aufsInodeCache := none }

/-- `aufs_init` -/
def aufsInit (m : AufsModule) (kmemCacheCreate : Bool) (registerFilesystem : Except Errno Unit) :
    Except ModuleFault (Except Errno Unit × AufsModule) :=
  match m.aufsInodeCacheCreate kmemCacheCreate with
  | (.error e, m) => .ok (.error e, m)
  | (.ok (), m) =>
    match registerFilesystem with
    | .error e => do return (.error e, ← m.aufsInodeCacheDestroy)
    | .ok () => .ok (.ok (), { m with registered := true })

/-- `aufs_fini`. What `unregister_filesystem` returns is only reported. -/
def aufsFini (m : AufsModule) (_unregisterFilesystem : Except Errno Unit) :
    Except ModuleFault AufsModule :=
  aufsInodeCacheDestroy { m with registered := false }

end AufsModule
end Aufs
