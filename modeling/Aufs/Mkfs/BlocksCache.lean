import Aufs.Mkfs.Format

/-! `BlocksCache` of `user/block.cpp`. A `BlockPtr` is a shared pointer to a block in the heap; the
cache holds one for each of its blocks, and the code that uses it holds the others, the handles.
Reads and writes of blocks on the device succeed. -/

namespace Aufs
open Bytes

/-- `Block` -/
structure Block where
  mNumber : Nat
  mData : Mem

/-- The device, `m_cache` in ascending order of block numbers with the addresses of the blocks, the
blocks by address, the next free address, and the handles: the address of each `BlockPtr` that is
held outside of the cache. -/
structure BlocksCache where
  device : Device
  mCache : List (Nat × Nat)
  blocks : Nat → Block
  next : Nat
  handles : List Nat

/-- `std::map::find` -/
def mapFind (cache : List (Nat × Nat)) (no : Nat) : Option Nat :=
  (cache.find? fun e => e.1 == no).map Prod.snd

/-- `std::map::insert` of a number that is not there. -/
def mapInsert (no addr : Nat) : List (Nat × Nat) → List (Nat × Nat)
  | [] => [(no, addr)]
  | e :: rest => if no < e.1 then (no, addr) :: e :: rest else e :: mapInsert no addr rest

namespace BlocksCache

/-- `ThresholdSize` -/
def thresholdSize : Nat := 1048576

section
variable (env : MkfsEnv) (config : Configuration)

/-- A cache on the device `dev`. -/
def make (dev : Device) : BlocksCache where
  device := dev
  mCache := []
  blocks := fun _ => { mNumber := 0, mData := fun _ => 0 }
  next := 0
  handles := []

/-- The loop of `Sync` over the rest of the map: every block is written, and one that no handle
points to is erased. -/
def syncLoop (blocks : Nat → Block) (handles : List Nat) :
    List (Nat × Nat) → Device → Device × List (Nat × Nat)
  | [], dev => (dev, [])
  | (no, addr) :: rest, dev =>
    let dev := writeBlock config dev (blocks addr).mNumber (blocks addr).mData
    let (dev, rest) := syncLoop blocks handles rest dev
    (dev, if addr ∈ handles then (no, addr) :: rest else rest)

def sync (s : BlocksCache) : BlocksCache :=
  let (device, cache) := syncLoop config s.blocks s.handles s.mCache s.device
  { s with device := device, mCache := cache }

/-- `GetBlock`, with the address of the block it returns. -/
def getBlock (s : BlocksCache) (no : Nat) : Nat × BlocksCache :=
  match mapFind s.mCache no with
  | some addr => (addr, { s with handles := addr :: s.handles })
  | none =>
    let s := if config.blockSize * s.mCache.length > thresholdSize then s.sync config else s
    let block := { mNumber := no, mData := readBlock env config s.device no }
    (s.next,
      { s with
        mCache := mapInsert no s.next s.mCache
        blocks := Function.update s.blocks s.next block
        next := s.next + 1
        handles := s.next :: s.handles })

/-- An edit of the data of a block, from offset `off` on. -/
def edit (s : BlocksCache) (addr off : Nat) (bytes : List Byte) : BlocksCache :=
  let block := s.blocks addr
  { s with
    blocks := Function.update s.blocks addr
      { block with mData := poke block.mData off bytes } }

/-- Another `BlockPtr` to the same block. -/
def copy (s : BlocksCache) (addr : Nat) : BlocksCache := { s with handles := addr :: s.handles }

/-- A `BlockPtr` goes. -/
def release (s : BlocksCache) (addr : Nat) : BlocksCache :=
  { s with handles := s.handles.erase addr }

/-- The device after the destructor. -/
def destroy (s : BlocksCache) : Device := (s.sync config).device

end

end BlocksCache

end Aufs
