import Aufs.Kern.Bitmap
import Aufs.Lib.Record
import Mathlib.Data.List.FinRange

/-! `kern/inode.c`: mapping a file block to a disk block, the inode codec, loading and storing
inodes. -/

namespace Aufs
open Bytes Word

/-! ## `aufs_get_block` -/

/-- The outcome of a call: the block passed to `map_bh`, or the error; the inode and the zone map
after it; and what `aufs_new_zone` returned, if it was called. -/
structure GetBlock where
  ret : Except Errno Nat
  inode : AufsInode
  zmap : MapBlocks
  newZone : Option Int

/-- `ai_zone_ptr[idx]`. Past the array stands the embedded inode, whose words are `behind`. -/
def AufsInode.zonePtr (inode : AufsInode) (behind : Nat → Nat) (idx : Nat) : Nat :=
  if h : idx < ZONE_PTR_IN_INODE_NUM then inode.aiZonePtr ⟨idx, h⟩
  else behind (idx - ZONE_PTR_IN_INODE_NUM)

/-- `aufs_get_block`; `bSize` is `bh_result->b_size`. `create` is not looked at. -/
def aufsGetBlock (sb : Sb) (zmap : MapBlocks) (inode : AufsInode) (behind : Nat → Nat)
    (iblock bSize : Nat) (_create : Bool) : GetBlock :=
  let zoneSize := u32 sb.sbi.asbZoneSize
  if zoneSize < bSize then { ret := .error .eio, inode, zmap, newZone := none }
  else if zoneSize > bSize ∧ zoneSize % bSize ≠ 0 then
    { ret := .error .eio, inode, zmap, newZone := none }
  else
    let blockIdx := u32 (iblock / (zoneSize / bSize))
    let blockOffset := u32 (iblock % (zoneSize / bSize))
    if inode.zonePtr behind blockIdx = 0 then
      if h : blockIdx < ZONE_PTR_IN_INODE_NUM then
        let (zone, zmap) := aufsNewZone sb zmap
        let inode := { inode with
          aiZonePtr := Function.update inode.aiZonePtr ⟨blockIdx, h⟩ (u64OfInt zone) }
        { ret := .ok (u64 (blockOffset + u64OfInt zone)), inode, zmap, newZone := some zone }
      else { ret := .error .eio, inode, zmap, newZone := none }
    else { ret := .ok (u64 (blockOffset + inode.zonePtr behind blockIdx)), inode, zmap,
           newZone := none }

/-! ## The inode codec -/

/-- The indices of `di_zone_ptr`, in the order of the loops. -/
def zonePtrs : List (Fin ZONE_PTR_IN_INODE_NUM) := List.finRange ZONE_PTR_IN_INODE_NUM

/-- The loop of `V2_minix_update_inode` over the zone pointers. -/
def putZonePtrs (raw : Mem) (ptr : Fin ZONE_PTR_IN_INODE_NUM → Nat)
    (is : List (Fin ZONE_PTR_IN_INODE_NUM)) : Mem :=
  is.foldl (fun raw (i : Fin _) => putBe32 raw (diZonePtr i) (ptr i)) raw

/-- `aufs_inode_fill` from the slot `di`. `i_mode` is a 16-bit field. -/
def aufsInodeFill (inode : AufsInode) (di : Mem) : AufsInode :=
  { inode with
    aiZonePtr := fun i => be32 di (diZonePtr i)
    iMode := be32 di diMode % 2 ^ 16
    iSize := be32 di diSize
    iBlocks := be32 di diBlocks
    iCtime := be64 di diCtime
    iUid := be32 di diUid
    iGid := be32 di diGid }

/-- The settings `fs.overflowuid` and `fs.overflowgid` of the running kernel. -/
structure OverflowIds where
  fsOverflowuid : Fin (2 ^ 16)
  fsOverflowgid : Fin (2 ^ 16)

/-- What a kernel starts with. -/
def defaultIds : OverflowIds := ⟨65534, 65534⟩

/-- `fs_high2lowuid` and `fs_high2lowgid`: ids above 16 bits become the overflow id. -/
def fsHigh2lowid (overflow : Fin (2 ^ 16)) (id : Nat) : Nat :=
  if id < 2 ^ 16 then id else overflow

/-- `V2_minix_update_inode` on the slot `raw`. -/
def v2MinixUpdateInode (ids : OverflowIds) (inode : AufsInode) (raw : Mem) : Mem :=
  let raw := putBe32 raw diMode inode.iMode
  let raw := putBe32 raw diUid (fsHigh2lowid ids.fsOverflowuid inode.iUid)
  let raw := putBe32 raw diGid (fsHigh2lowid ids.fsOverflowgid inode.iGid)
  let raw := putBe32 raw diSize inode.iSize
  let raw := putBe32 raw diBlocks inode.iBlocks
  let raw := putBe64 raw diCtime inode.iCtime
  putZonePtrs raw inode.aiZonePtr zonePtrs

/-- `aufs_inode_get` for an inode not in memory, whose slot is `di`: `iget_locked` gives a clean
inode with one link. -/
def aufsInodeGet (leftover : Fin ZONE_PTR_IN_INODE_NUM → Nat) (no : Nat) (di : Mem) :
    Except Errno AufsInode :=
  let inode := aufsInodeFill { newInode leftover with iIno := no } di
  if sIsReg inode.iMode then .ok inode
  else if sIsDir inode.iMode then .ok inode
  else .error .eio

/-- `minix_set_inode` -/
def minixSetInode (inode : AufsInode) : Except Errno Unit :=
  if sIsReg inode.iMode then .ok ()
  else if sIsDir inode.iMode then .ok ()
  else if sIsLnk inode.iMode then .error .einval
  else .error .einval

/-! ## What the codec does -/

/-- The words of a slot, in the order in which `V2_minix_update_inode` stores them. -/
def diFields (ids : OverflowIds) (inode : AufsInode) : List Field :=
  [⟨diMode, 4, inode.iMode⟩, ⟨diUid, 4, fsHigh2lowid ids.fsOverflowuid inode.iUid⟩,
    ⟨diGid, 4, fsHigh2lowid ids.fsOverflowgid inode.iGid⟩, ⟨diSize, 4, inode.iSize⟩,
    ⟨diBlocks, 4, inode.iBlocks⟩, ⟨diCtime, 8, inode.iCtime⟩] ++
  zonePtrs.map fun i => ⟨diZonePtr i, 4, inode.aiZonePtr i⟩

theorem v2MinixUpdateInode_eq (ids : OverflowIds) (inode : AufsInode) (raw : Mem) :
    v2MinixUpdateInode ids inode raw = putFields .big raw (diFields ids inode) := by
  rw [putFields, diFields, List.foldl_append, List.foldl_map]
  rfl

/-- The words of a slot share no byte. -/
theorem diFields_apart (ids : OverflowIds) (inode : AufsInode) :
    ((diFields ids inode).map Field.span).Pairwise Apart := by
  have hspans : (diFields ids inode).map Field.span =
      [(52, 4), (48, 4), (44, 4), (40, 4), (36, 4), (56, 8), (0, 4), (4, 4), (8, 4), (12, 4),
        (16, 4), (20, 4), (24, 4), (28, 4), (32, 4)] := rfl
  rw [hspans]
  decide

/-- Each word of the slot reads back, cut to its width. -/
theorem getWord_update {inode : AufsInode} {raw : Mem} {f : Field} (hf : f ∈ diFields ids inode) :
    getWord .big (v2MinixUpdateInode ids inode raw) f.off f.width = f.value % 256 ^ f.width := by
  rw [v2MinixUpdateInode_eq]
  exact getWord_putFields (diFields_apart ids inode) hf

theorem mem_diFields_zonePtr (ids : OverflowIds) (inode : AufsInode)
    (i : Fin ZONE_PTR_IN_INODE_NUM) :
    (⟨diZonePtr i, 4, inode.aiZonePtr i⟩ : Field) ∈ diFields ids inode :=
  List.mem_append_right _ (List.mem_map.mpr ⟨i, List.mem_finRange i, rfl⟩)

@[simp] theorem be32_update_zonePtr (ids : OverflowIds) (raw : Mem) (inode : AufsInode)
    (i : Fin ZONE_PTR_IN_INODE_NUM) :
    be32 (v2MinixUpdateInode ids inode raw) (diZonePtr i) = inode.aiZonePtr i % 2 ^ 32 :=
  getWord_update (mem_diFields_zonePtr ids inode i)

@[simp] theorem be32_update_size (ids : OverflowIds) (inode : AufsInode) :
    be32 (v2MinixUpdateInode ids inode raw) diSize = inode.iSize % 2 ^ 32 :=
  getWord_update (List.mem_append_left _ (.tail _ (.tail _ (.tail _ (.head _)))))

/-- An inode is the 64 bytes of its slot. -/
theorem aufsInodeFill_congr {inode : AufsInode} {di di' : Mem} (h : ∀ k < 64, di k = di' k) :
    aufsInodeFill inode di = aufsInodeFill inode di' := by
  have hword : ∀ off ≤ 60, be32 di off = be32 di' off :=
    fun off hoff => be32_congr fun k hk => h _ (by omega)
  have hptr : (fun i : Fin ZONE_PTR_IN_INODE_NUM => be32 di (diZonePtr i)) =
      fun i : Fin ZONE_PTR_IN_INODE_NUM => be32 di' (diZonePtr i) := by
    funext i
    have hi : (i : Nat) < 9 := i.isLt
    exact hword _ (by unfold diZonePtr; omega)
  have hctime : be64 di diCtime = be64 di' diCtime :=
    be64_congr fun k hk => h _ (by unfold diCtime; omega)
  simp only [aufsInodeFill, hptr, hctime, hword _ (show diMode ≤ 60 by decide),
    hword _ (show diSize ≤ 60 by decide), hword _ (show diBlocks ≤ 60 by decide),
    hword _ (show diUid ≤ 60 by decide), hword _ (show diGid ≤ 60 by decide)]

theorem aufsInodeGet_ok (h : aufsInodeGet leftover no di = .ok inode) :
    inode = aufsInodeFill { newInode leftover with iIno := no } di := by
  unfold aufsInodeGet at h
  simp only at h
  split at h
  · exact (Except.ok.inj h).symm
  · split at h
    · exact (Except.ok.inj h).symm
    · cases h

/-- Writing an inode back and reading it again gives its zone pointers and size, if they fit the
words of the slot. -/
theorem aufsInodeFill_update {inode : AufsInode} (hptr : ∀ i, inode.aiZonePtr i < 2 ^ 32)
    (hsize : inode.iSize < 2 ^ 32) :
    (aufsInodeFill other (v2MinixUpdateInode ids inode raw)).aiZonePtr = inode.aiZonePtr ∧
      (aufsInodeFill other (v2MinixUpdateInode ids inode raw)).iSize = inode.iSize := by
  refine ⟨funext fun i => ?_, ?_⟩
  · simp only [aufsInodeFill, be32_update_zonePtr, Nat.mod_eq_of_lt (hptr i)]
  · simp only [aufsInodeFill, be32_update_size, Nat.mod_eq_of_lt hsize]

end Aufs
