import Aufs.Kern.Dir
import Aufs.Lib.Locking

/-! The pages of `kern/dir.c`. Here the functions that go through a directory also list what they do
with its pages: `dir_get_page` and `grab_cache_page` take a reference, `aufs_put_page` and
`put_page` drop it, `lock_page` and `unlock_page` (also inside `dir_commit_chunk`) stand for
themselves, and what lies in a page is read and changed in between. -/

namespace Aufs
open Bytes Word

/-- Page `n` of directory `ino`. -/
abbrev PageKey := Nat × Nat

abbrev PageEvent := Locking.Event PageKey

/-- What a call finds: the directory, its content, the zone map and everything around. -/
structure DirView where
  env : DirEnv
  zmap : MapBlocks
  dir : AufsInode
  content : Mem

def DirView.key (v : DirView) (n : Nat) : PageKey := (v.dir.iIno, n)

/-- The outer loop of `minix_find_entry`. A page with an entry that is found is left with its
reference. -/
def findEntryLoopEvents (order : ByteOrder) (v : DirView) (name : List Byte) :
    Nat → Nat → List PageEvent × Option (Nat × Mem × Nat)
  | 0, _ => ([], none)
  | k + 1, n =>
    match dirGetPage v.env v.dir v.content n with
    | .error _ => findEntryLoopEvents order v name k (n + 1)
    | .ok page =>
      match minixFindEntryPage order name page (minixLastByte v.dir n)
        (PAGE_SIZE / AUFS_DIR_SIZE) 0 with
      | some p => ([.get (v.key n), .read (v.key n)], some (n, page, p))
      | none =>
        let (es, found) := findEntryLoopEvents order v name k (n + 1)
        ([.get (v.key n), .read (v.key n), .put (v.key n)] ++ es, found)

/-- `minix_inode_by_name`, which drops the page once it has the number. -/
def inodeByNameEvents (order : ByteOrder) (v : DirView) (name : List Byte) :
    List PageEvent × Nat :=
  match findEntryLoopEvents order v name (dirPages v.dir) 0 with
  | (es, none) => (es, 0)
  | (es, some (n, page, p)) => (es ++ [.read (v.key n), .put (v.key n)], ddeIno order page p)

/-- The outer loop of `minix_add_link`. A page with room is left locked, and the entry at `i_size`
has been cleared. -/
def addLinkLoopEvents (order : ByteOrder) (v : DirView) (name : List Byte) :
    Nat → Nat → List PageEvent × AddLinkScan
  | 0, _ => ([], .bug)
  | k + 1, n =>
    match dirGetPage v.env v.dir v.content n with
    | .error e => ([], .out e)
    | .ok page =>
      let start := [.get (v.key n), .lock (v.key n), .read (v.key n)]
      match minixAddLinkPage order name page (minixLastByte v.dir n)
        (PAGE_SIZE / AUFS_DIR_SIZE) 0 with
      | .gotIt p =>
        (start ++ (if p = minixLastByte v.dir n then [.write (v.key n)] else []),
          .gotIt (n * PAGE_SIZE + p))
      | .exist => (start ++ [.unlock (v.key n), .put (v.key n)], .out .eexist)
      | .next =>
        let (es, scan) := addLinkLoopEvents order v name k (n + 1)
        (start ++ [.unlock (v.key n), .put (v.key n)] ++ es, scan)

/-- `minix_add_link` -/
def addLinkEvents (order : ByteOrder) (sb : Sb) (v : DirView) (name : List Byte) :
    List PageEvent :=
  match addLinkLoopEvents order v name (dirPages v.dir + 1) 0 with
  | (es, .gotIt pos) =>
    let key := v.key (pos / PAGE_SIZE)
    match (minixPrepareChunk sb v.env v.zmap v.dir pos).ret with
    | .error _ => es ++ [.unlock key, .put key]
    | .ok _ => es ++ [.write key, .unlock key, .put key]
  | (es, _) => es

/-- `minix_make_empty` -/
def makeEmptyEvents (sb : Sb) (v : DirView) : List PageEvent :=
  match v.env.grabCachePage with
  | .error _ => []
  | .ok () =>
    match (minixPrepareChunk sb v.env v.zmap v.dir 0).ret with
    | .error _ => [.get (v.key 0), .lock (v.key 0), .unlock (v.key 0), .put (v.key 0)]
    | .ok _ =>
      [.get (v.key 0), .lock (v.key 0), .write (v.key 0), .unlock (v.key 0), .put (v.key 0)]

/-- The outer loop of `minix_readdir`. -/
def readdirLoopEvents (order : ByteOrder) (v : DirView) :
    Nat → Nat → Nat → Readdir → List PageEvent × Readdir
  | 0, _, _, r => ([], r)
  | k + 1, n, offset, r =>
    match dirGetPage v.env v.dir v.content n with
    | .error _ => readdirLoopEvents order v k (n + 1) 0 r
    | .ok page =>
      let r := minixReaddirPage order page (minixLastByte v.dir n)
        (PAGE_SIZE / AUFS_DIR_SIZE) offset r
      let visit := [.get (v.key n), .read (v.key n), .put (v.key n)]
      if r.full then (visit, r)
      else
        let (es, r) := readdirLoopEvents order v k (n + 1) 0 r
        (visit ++ es, r)

/-- `minix_readdir` -/
def readdirEvents (order : ByteOrder) (v : DirView) (pos room : Nat) :
    List PageEvent × Readdir :=
  let pos := (pos + AUFS_DIR_SIZE - 1) / AUFS_DIR_SIZE * AUFS_DIR_SIZE
  let start : Readdir := { emitted := [], pos, room, full := false }
  if pos ≥ v.dir.iSize then ([], start)
  else
    let n := pos / PAGE_SIZE
    readdirLoopEvents order v (dirPages v.dir - n) n (pos % PAGE_SIZE) start

/-- A call that goes through the pages of a directory. -/
inductive PageCall where
  | inodeByName (v : DirView) (name : List Byte)
  | addLink (v : DirView) (name : List Byte)
  | makeEmpty (v : DirView)
  | readdir (v : DirView) (pos room : Nat)

def PageCall.events (order : ByteOrder) (sb : Sb) : PageCall → List PageEvent
  | inodeByName v name => (inodeByNameEvents order v name).1
  | addLink v name => addLinkEvents order sb v name
  | makeEmpty v => makeEmptyEvents sb v
  | readdir v pos room => (readdirEvents order v pos room).1

end Aufs
