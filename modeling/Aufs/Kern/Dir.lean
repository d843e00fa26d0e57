import Aufs.Kern.Inode

/-! `kern/dir.c`: searching, growing and listing a directory.

A directory's content is its page cache, memory by file offset. The cache holds the file's bytes
below `i_size`; what it shows behind them is left over from the device or from an earlier read, and
may be different at every call. Entries hold their inode number in the byte order of the host. -/

namespace Aufs
open Bytes Word

def PAGE_SIZE : Nat := 4096

/-- What one call finds around it: which page reads fail and what the pages hold behind `i_size`;
whether a page could be had, the rest of a block read, a page written; the clock; and the words
behind the inode's zone pointers. -/
structure DirEnv where
  readMappingPage : Nat → Except Errno Unit
  stale : Mem
  grabCachePage : Except Errno Unit
  blockRead : Except Errno Unit
  writeOnePage : Except Errno Unit
  currentTime : Nat
  behind : Nat → Nat

/-- The page cache of `dir` during a call. -/
def DirEnv.pageCache (env : DirEnv) (dir : AufsInode) (content : Mem) : Mem := fun a =>
  if a < dir.iSize then content a else env.stale a

/-- Page `n` of it, seen from its start. -/
def DirEnv.page (env : DirEnv) (dir : AufsInode) (content : Mem) (n : Nat) : Mem := fun k =>
  env.pageCache dir content (n * PAGE_SIZE + k)

/-- The calls of `aufs_get_block` that `aufs_readpage` makes for `k` blocks of a page from block
`iblock` on, those that start below `i_size`: the inode and the zone map after them, and what
`aufs_new_zone` returned. -/
def readpageZones (sb : Sb) (behind : Nat → Nat) :
    Nat → Nat → AufsInode → MapBlocks → AufsInode × MapBlocks × List Int
  | 0, _, inode, zmap => (inode, zmap, [])
  | k + 1, iblock, inode, zmap =>
    if iblock * sb.sBlocksize < inode.iSize then
      let mapped := aufsGetBlock sb zmap inode behind iblock sb.sBlocksize false
      let (inode, zmap, newZones) := readpageZones sb behind k (iblock + 1) mapped.inode mapped.zmap
      (inode, zmap, mapped.newZone.toList ++ newZones)
    else readpageZones sb behind k (iblock + 1) inode zmap

/-- What bringing page `n` into the page cache does to the zones. -/
def aufsReadpageZones (sb : Sb) (behind : Nat → Nat) (zmap : MapBlocks) (inode : AufsInode)
    (n : Nat) : AufsInode × MapBlocks × List Int :=
  readpageZones sb behind (PAGE_SIZE / sb.sBlocksize) (n * (PAGE_SIZE / sb.sBlocksize)) inode zmap

/-- No block below `i_size` waits for a zone. -/
def AufsInode.NoHole (sb : Sb) (inode : AufsInode) : Prop :=
  ∀ iblock, iblock * sb.sBlocksize < inode.iSize →
    ∀ h : u32 (iblock / (u32 sb.sbi.asbZoneSize / sb.sBlocksize)) < ZONE_PTR_IN_INODE_NUM,
      inode.aiZonePtr ⟨_, h⟩ ≠ 0

/-- `dir_get_page`. The zones are left alone, as `aufs_readpage` leaves them where the directory has
no hole below `i_size` (`AufsInode.NoHole`); for a hole it would take one (`aufsReadpageZones`). -/
def dirGetPage (env : DirEnv) (dir : AufsInode) (content : Mem) (n : Nat) : Except Errno Mem := do
  env.readMappingPage n
  return env.page dir content n

def dirPages (inode : AufsInode) : Nat := (inode.iSize + PAGE_SIZE - 1) / PAGE_SIZE

def minixLastByte (inode : AufsInode) (pageNr : Nat) : Nat :=
  if pageNr = inode.iSize / PAGE_SIZE then inode.iSize % PAGE_SIZE else PAGE_SIZE

/-- `namecompare` against the name that stands at `buffer` in `page`. -/
def namecompare (maxlen : Nat) (name : List Byte) (page : Mem) (buffer : Nat) : Bool :=
  if name.length < maxlen ∧ page (buffer + name.length) ≠ 0 then false
  else peek page buffer name.length = name

/-- `de->dde_inode` of the entry at `p`. -/
def ddeIno (order : ByteOrder) (page : Mem) (p : Nat) : Nat := getWord order page (p + ddeInode) 4

/-! ## Searching -/

/-- The inner loop of `minix_find_entry`, `k` entries from `p` on. -/
def minixFindEntryPage (order : ByteOrder) (name : List Byte) (page : Mem) (lastByte : Nat) :
    Nat → Nat → Option Nat
  | 0, _ => none
  | k + 1, p =>
    if p + AUFS_DIR_SIZE ≤ lastByte then
      if ddeIno order page p = 0 then
        minixFindEntryPage order name page lastByte k (p + AUFS_DIR_SIZE)
      else if namecompare AUFS_NAME_LEN name page (p + ddeName) then some p
      else minixFindEntryPage order name page lastByte k (p + AUFS_DIR_SIZE)
    else none

/-- The outer loop of `minix_find_entry`, `k` pages from `n` on. A page that cannot be read is
skipped. -/
def minixFindEntryLoop (order : ByteOrder) (env : DirEnv) (dir : AufsInode) (content : Mem)
    (name : List Byte) : Nat → Nat → Option (Mem × Nat)
  | 0, _ => none
  | k + 1, n =>
    match dirGetPage env dir content n with
    | .error _ => minixFindEntryLoop order env dir content name k (n + 1)
    | .ok page =>
      match minixFindEntryPage order name page (minixLastByte dir n)
        (PAGE_SIZE / AUFS_DIR_SIZE) 0 with
      | some p => some (page, p)
      | none => minixFindEntryLoop order env dir content name k (n + 1)

/-- `minix_find_entry`: the page and the offset of the entry in it. -/
def minixFindEntry (order : ByteOrder) (env : DirEnv) (dir : AufsInode) (content : Mem)
    (name : List Byte) : Option (Mem × Nat) :=
  minixFindEntryLoop order env dir content name (dirPages dir) 0

def minixInodeByName (order : ByteOrder) (env : DirEnv) (dir : AufsInode) (content : Mem)
    (name : List Byte) : Nat :=
  match minixFindEntry order env dir content name with
  | some (page, p) => ddeIno order page p
  | none => 0

/-! ## Growing -/

/-- How the inner loop of `minix_add_link` leaves a page. -/
inductive PageScan where
  | gotIt (p : Nat)
  | exist
  | next
  deriving DecidableEq, Repr

/-- The inner loop of `minix_add_link`, `k` entries from `p` on. -/
def minixAddLinkPage (order : ByteOrder) (name : List Byte) (page : Mem) (dirEnd : Nat) :
    Nat → Nat → PageScan
  | 0, _ => .next
  | k + 1, p =>
    if p = dirEnd then .gotIt p
    else if ddeIno order page p = 0 then .gotIt p
    else if namecompare AUFS_NAME_LEN name page (p + ddeName) then .exist
    else minixAddLinkPage order name page dirEnd k (p + AUFS_DIR_SIZE)

/-- How the search of `minix_add_link` ends; `bug` is the `BUG()` behind the loop. -/
inductive AddLinkScan where
  | gotIt (pos : Nat)
  | out (err : Errno)
  | bug
  deriving DecidableEq, Repr

/-- The outer loop of `minix_add_link`, `k` pages from `n` on. -/
def minixAddLinkLoop (order : ByteOrder) (env : DirEnv) (dir : AufsInode) (content : Mem)
    (name : List Byte) : Nat → Nat → AddLinkScan
  | 0, _ => .bug
  | k + 1, n =>
    match dirGetPage env dir content n with
    | .error e => .out e
    | .ok page =>
      match minixAddLinkPage order name page (minixLastByte dir n)
        (PAGE_SIZE / AUFS_DIR_SIZE) 0 with
      | .gotIt p => .gotIt (n * PAGE_SIZE + p)
      | .exist => .out .eexist
      | .next => minixAddLinkLoop order env dir content name k (n + 1)

/-- `minix_prepare_chunk`: `__block_write_begin` maps the block of the chunk, which never crosses a
block boundary, and reads what the chunk leaves of it. -/
def minixPrepareChunk (sb : Sb) (env : DirEnv) (zmap : MapBlocks) (inode : AufsInode) (pos : Nat) :
    GetBlock :=
  let mapped := aufsGetBlock sb zmap inode env.behind (pos / sb.sBlocksize) sb.sBlocksize true
  match mapped.ret, env.blockRead with
  | .ok _, .error e => { mapped with ret := .error e }
  | _, _ => mapped

/-- `dir_commit_chunk`; the page is written at once only under `IS_DIRSYNC`. -/
def dirCommitChunk (env : DirEnv) (dir : AufsInode) (pos len : Nat) :
    Except Errno Unit × AufsInode :=
  (env.writeOnePage,
    if pos + len > dir.iSize then markInodeDirty { dir with iSize := pos + len } else dir)

/-- A call that may grow a directory: its result (`none` is `BUG()`), the directory and the zone
map after it, and what `aufs_new_zone` returned, if it was called. -/
structure DirCall where
  ret : Option (Except Errno Unit)
  dir : AufsInode
  content : Mem
  zmap : MapBlocks
  newZone : Option Int

/-- The entry that `minix_add_link` stores at `pos`. -/
def putEntry (order : ByteOrder) (m : Mem) (pos ino : Nat) (name : List Byte) : Mem :=
  putWord order
    (poke m (pos + ddeName) (name ++ List.replicate (AUFS_DIR_SIZE - name.length - 4) 0))
    (pos + ddeInode) 4 ino

/-- `minix_add_link` of inode number `ino`. -/
def minixAddLink (order : ByteOrder) (sb : Sb) (env : DirEnv) (zmap : MapBlocks) (dir : AufsInode)
    (content : Mem) (name : List Byte) (ino : Nat) : DirCall :=
  match minixAddLinkLoop order env dir content name (dirPages dir + 1) 0 with
  | .bug => { ret := none, dir, content, zmap, newZone := none }
  | .out e => { ret := some (.error e), dir, content, zmap, newZone := none }
  | .gotIt pos =>
    let mapped := minixPrepareChunk sb env zmap dir pos
    match mapped.ret with
    | .error e =>
      { ret := some (.error e), dir := mapped.inode, content, zmap := mapped.zmap,
        newZone := mapped.newZone }
    | .ok _ =>
      let (err, dir') := dirCommitChunk env mapped.inode pos AUFS_DIR_SIZE
      { ret := some err
        dir := markInodeDirty { dir' with iCtime := env.currentTime }
        content := putEntry order (env.pageCache dir content) pos ino name
        zmap := mapped.zmap
        newZone := mapped.newZone }

/-- The first page of a new directory `ino` in `parent`. -/
def emptyDirPage (order : ByteOrder) (m : Mem) (ino parent : Nat) : Mem :=
  let m : Mem := fun a => if a < PAGE_SIZE then 0 else m a
  let m := putWord order m ddeInode 4 ino
  let m := poke m ddeName (ascii "." ++ [0])
  let m := putWord order m (AUFS_DIR_SIZE + ddeInode) 4 parent
  poke m (AUFS_DIR_SIZE + ddeName) (ascii ".." ++ [0])

/-- `minix_make_empty` of `inode` in the directory `parent`. -/
def minixMakeEmpty (order : ByteOrder) (sb : Sb) (env : DirEnv) (zmap : MapBlocks)
    (inode : AufsInode) (content : Mem) (parent : Nat) : DirCall :=
  match env.grabCachePage with
  | .error e => { ret := some (.error e), dir := inode, content, zmap, newZone := none }
  | .ok () =>
    let mapped := minixPrepareChunk sb env zmap inode 0
    match mapped.ret with
    | .error e =>
      { ret := some (.error e), dir := mapped.inode, content, zmap := mapped.zmap,
        newZone := mapped.newZone }
    | .ok _ =>
      let (err, inode') := dirCommitChunk env mapped.inode 0 (2 * AUFS_DIR_SIZE)
      { ret := some err
        dir := inode'
        content := emptyDirPage order (env.pageCache inode content) inode.iIno parent
        zmap := mapped.zmap
        newZone := mapped.newZone }

/-! ## Listing -/

def strnlen (m : Mem) (off maxlen : Nat) : Nat :=
  ((peek m off maxlen).takeWhile (· ≠ 0)).length

/-- Where a listing stands: what `dir_emit` took, `ctx->pos`, how many more entries `dir_emit`
takes, and whether it has refused one. -/
structure Readdir where
  emitted : List (List Byte × Nat)
  pos : Nat
  room : Nat
  full : Bool

/-- The inner loop of `minix_readdir`, `k` entries from `p` on. -/
def minixReaddirPage (order : ByteOrder) (page : Mem) (lastByte : Nat) :
    Nat → Nat → Readdir → Readdir
  | 0, _, r => r
  | k + 1, p, r =>
    if p + AUFS_DIR_SIZE ≤ lastByte then
      if ddeIno order page p ≠ 0 then
        let l := strnlen page (p + ddeName) AUFS_NAME_LEN
        match r.room with
        | 0 => { r with full := true }
        | room + 1 =>
          minixReaddirPage order page lastByte k (p + AUFS_DIR_SIZE)
            { r with
              emitted := r.emitted ++ [(peek page (p + ddeName) l, ddeIno order page p)]
              pos := r.pos + AUFS_DIR_SIZE
              room := room }
      else
        minixReaddirPage order page lastByte k (p + AUFS_DIR_SIZE)
          { r with pos := r.pos + AUFS_DIR_SIZE }
    else r

/-- The outer loop of `minix_readdir`, `k` pages from `n` on, the first one from `offset` on. A
page that cannot be read is skipped, and `ctx->pos` stays. -/
def minixReaddirLoop (order : ByteOrder) (env : DirEnv) (inode : AufsInode) (content : Mem) :
    Nat → Nat → Nat → Readdir → Readdir
  | 0, _, _, r => r
  | k + 1, n, offset, r =>
    match dirGetPage env inode content n with
    | .error _ => minixReaddirLoop order env inode content k (n + 1) 0 r
    | .ok page =>
      let r := minixReaddirPage order page (minixLastByte inode n)
        (PAGE_SIZE / AUFS_DIR_SIZE) offset r
      if r.full then r else minixReaddirLoop order env inode content k (n + 1) 0 r

/-- `minix_readdir` at `ctx->pos = pos`, when `dir_emit` takes `room` entries. -/
def minixReaddir (order : ByteOrder) (env : DirEnv) (inode : AufsInode) (content : Mem)
    (pos room : Nat) : Readdir :=
  let pos := (pos + AUFS_DIR_SIZE - 1) / AUFS_DIR_SIZE * AUFS_DIR_SIZE
  let start : Readdir := { emitted := [], pos, room, full := false }
  if pos ≥ inode.iSize then start
  else
    let n := pos / PAGE_SIZE
    minixReaddirLoop order env inode content (dirPages inode - n) n (pos % PAGE_SIZE) start

end Aufs
