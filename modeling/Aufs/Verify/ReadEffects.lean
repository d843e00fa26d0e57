import Aufs.Verify.ZoneLimit
import Mathlib.Data.Finset.Card

/-! What reading does to the zone map and the inodes. `aufs_readpage` maps blocks with `create = 0`,
but `aufs_get_block` does not look at the flag: it takes a zone for a hole that is only read. -/

namespace Aufs
open Bytes Word

/-- The zone map and the inodes in memory. -/
structure ZoneState where
  zmap : MapBlocks
  inodes : Nat → AufsInode

/-- The reading of a file block; `behind` stands behind the zone pointers of the inode. -/
structure BlockRead where
  ino : Nat
  iblock : Nat
  behind : Nat → Nat

section
variable (sb : Sb) (bSize : Nat)

/-- `aufs_get_block` as `block_read_full_page` calls it, in blocks of `bSize` bytes. -/
def ZoneState.read (s : ZoneState) (r : BlockRead) : ZoneState :=
  let call := aufsGetBlock sb s.zmap (s.inodes r.ino) r.behind r.iblock bSize false
  { zmap := call.zmap, inodes := Function.update s.inodes r.ino call.inode }

/-- One read after the other. -/
def ZoneState.reads (s : ZoneState) (rs : List BlockRead) : ZoneState :=
  rs.foldl (ZoneState.read sb bSize) s

/-- The number of free zones. -/
def Sb.freeZones (zmap : MapBlocks) : Nat :=
  ((Finset.range (sb.sbi.asbZoneMapBlocks * (8 * sb.sBlocksize))).filter fun k =>
    rowBit (8 * sb.sBlocksize) zmap k = false).card

/-- The block sizes for which `aufs_get_block` fails at once. -/
def Sb.Rejects : Prop :=
  u32 sb.sbi.asbZoneSize < bSize ∨
    u32 sb.sbi.asbZoneSize > bSize ∧ u32 sb.sbi.asbZoneSize % bSize ≠ 0

/-- The zone of a file block. -/
def Sb.zoneOf (iblock : Nat) : Nat := iblock / (u32 sb.sbi.asbZoneSize / bSize)

/-- What is read needs no zone, or none is left. -/
def ZoneState.NeedsNoZone (s : ZoneState) (r : BlockRead) : Prop :=
  sb.Rejects bSize ∨ (s.inodes r.ino).zonePtr r.behind (sb.zoneOf bSize r.iblock) ≠ 0 ∨
    RowFull (8 * sb.sBlocksize) sb.sbi.asbZoneMapBlocks s.zmap

end

section
variable {sb : Sb} {bSize : Nat}

/-! ## One call -/

section
variable (zmap : MapBlocks) (inode : AufsInode) (behind : Nat → Nat) {iblock : Nat} (create : Bool)

theorem aufsGetBlock_rejects (h : sb.Rejects bSize) :
    aufsGetBlock sb zmap inode behind iblock bSize create =
      { ret := .error .eio, inode, zmap, newZone := none } := by
  simp only [aufsGetBlock]
  split
  · rfl
  · next hge =>
    rcases h with hlt | hmod
    · exact absurd hlt hge
    · rw [if_pos hmod]

theorem aufsGetBlock_below (h : ¬sb.Rejects bSize)
    (hidx : sb.zoneOf bSize iblock < ZONE_PTR_IN_INODE_NUM) :
    aufsGetBlock sb zmap inode behind iblock bSize create =
      let offset := u32 (iblock % (u32 sb.sbi.asbZoneSize / bSize))
      if inode.aiZonePtr ⟨_, hidx⟩ = 0 then
        { ret := .ok (u64 (offset + u64OfInt (aufsNewZone sb zmap).1))
          inode := { inode with
            aiZonePtr := Function.update inode.aiZonePtr ⟨_, hidx⟩
              (u64OfInt (aufsNewZone sb zmap).1) }
          zmap := (aufsNewZone sb zmap).2
          newZone := some (aufsNewZone sb zmap).1 }
      else
        { ret := .ok (u64 (offset + inode.aiZonePtr ⟨_, hidx⟩)), inode, zmap,
          newZone := none } := by
  obtain ⟨hge, hmod⟩ := not_or.mp h
  have hu : u32 (iblock / (u32 sb.sbi.asbZoneSize / bSize)) = sb.zoneOf bSize iblock :=
    u32_of_lt (Nat.lt_trans hidx (by decide))
  simp only [aufsGetBlock, if_neg hge, if_neg hmod, hu, AufsInode.zonePtr, dif_pos hidx]

end

variable {s : ZoneState} {r : BlockRead}

theorem needsNoZone_iff (hidx : sb.zoneOf bSize r.iblock < ZONE_PTR_IN_INODE_NUM) :
    s.NeedsNoZone sb bSize r ↔ sb.Rejects bSize ∨ (s.inodes r.ino).aiZonePtr ⟨_, hidx⟩ ≠ 0 ∨
      RowFull (8 * sb.sBlocksize) sb.sbi.asbZoneMapBlocks s.zmap := by
  rw [ZoneState.NeedsNoZone, AufsInode.zonePtr, dif_pos hidx]

/-- A read inside the nine zones changes nothing, or it takes the lowest free zone. -/
theorem read_cases (hidx : sb.zoneOf bSize r.iblock < ZONE_PTR_IN_INODE_NUM) :
    (s.NeedsNoZone sb bSize r ∧ s.read sb bSize r = s) ∨
      ¬s.NeedsNoZone sb bSize r ∧ ∃ k, Takes (8 * sb.sBlocksize) sb.sbi.asbZoneMapBlocks s.zmap
        (s.read sb bSize r).zmap k := by
  have hself : ∀ {inode}, inode = s.inodes r.ino →
      { s with inodes := Function.update s.inodes r.ino inode } = s := by
    intro inode hinode
    rw [hinode, Function.update_eq_self]
  rw [needsNoZone_iff hidx]
  by_cases hrej : sb.Rejects bSize
  · refine .inl ⟨.inl hrej, ?_⟩
    rw [ZoneState.read, aufsGetBlock_rejects _ _ _ _ hrej]
    exact hself rfl
  · rw [ZoneState.read, aufsGetBlock_below _ _ _ _ hrej hidx]
    by_cases hptr : (s.inodes r.ino).aiZonePtr ⟨_, hidx⟩ = 0
    · simp only [if_pos hptr]
      rcases aufsNewZone_takes sb s.zmap with ⟨hfull, heq⟩ | ⟨k, zmap', zone, htakes, heq, -⟩
      · -- The pointer that was zero is set to zero.
        refine .inl ⟨.inr (.inr hfull), ?_⟩
        rw [heq]
        apply hself
        have hzero : u64OfInt 0 = (s.inodes r.ino).aiZonePtr ⟨_, hidx⟩ := hptr.symm
        rw [hzero, Function.update_eq_self]
      · refine .inr ⟨?_, k, ?_⟩
        · rintro (h | h | h)
          · exact hrej h
          · exact h hptr
          · cases htakes.clear.symm.trans (h k htakes.lt)
        · rw [heq]
          exact htakes
    · rw [if_neg hptr]
      exact .inl ⟨.inr (.inl hptr), hself rfl⟩

/-! ## Any number of reads -/

/-- Reads that need no zone in the state they start from leave it. -/
theorem reads_eq_self {rs : List BlockRead}
    (hidx : ∀ r ∈ rs, sb.zoneOf bSize r.iblock < ZONE_PTR_IN_INODE_NUM)
    (h : ∀ r ∈ rs, s.NeedsNoZone sb bSize r) : s.reads sb bSize rs = s := by
  induction rs with
  | nil => rfl
  | cons r rs ih =>
    rcases read_cases (hidx r List.mem_cons_self) with ⟨-, heq⟩ | ⟨hneeds, -⟩
    · rw [ZoneState.reads, List.foldl_cons, heq]
      exact ih (fun r' hr' => hidx r' (List.mem_cons_of_mem _ hr'))
        fun r' hr' => h r' (List.mem_cons_of_mem _ hr')
    · exact absurd (h r List.mem_cons_self) hneeds

/-- No read gives a zone back. -/
theorem reads_gains {rs : List BlockRead}
    (hidx : ∀ r ∈ rs, sb.zoneOf bSize r.iblock < ZONE_PTR_IN_INODE_NUM) :
    ∃ ks, Gains (8 * sb.sBlocksize) s.zmap (s.reads sb bSize rs).zmap ks := by
  induction rs generalizing s with
  | nil => exact ⟨[], .nil⟩
  | cons r rs ih =>
    have hrest := ih (s := s.read sb bSize r) fun r' hr' => hidx r' (List.mem_cons_of_mem _ hr')
    rcases read_cases (hidx r List.mem_cons_self) with ⟨-, heq⟩ | ⟨-, k, htakes⟩
    · rw [heq] at hrest
      rwa [ZoneState.reads, List.foldl_cons, heq]
    · obtain ⟨ks, hgains⟩ := hrest
      exact ⟨[k] ++ ks, htakes.gains.append hgains⟩

/-- A read that needs a zone leaves one zone less, whatever is read before and after. -/
theorem reads_take {rs : List BlockRead}
    (hidx : ∀ r ∈ rs, sb.zoneOf bSize r.iblock < ZONE_PTR_IN_INODE_NUM)
    (h : ¬∀ r ∈ rs, s.NeedsNoZone sb bSize r) :
    ∃ k < sb.sbi.asbZoneMapBlocks * (8 * sb.sBlocksize),
      rowBit (8 * sb.sBlocksize) s.zmap k = false ∧
      rowBit (8 * sb.sBlocksize) (s.reads sb bSize rs).zmap k = true := by
  induction rs with
  | nil => exact absurd (fun r hr => nomatch hr) h
  | cons r rs ih =>
    have hrest : ∀ r' ∈ rs, sb.zoneOf bSize r'.iblock < ZONE_PTR_IN_INODE_NUM :=
      fun r' hr' => hidx r' (List.mem_cons_of_mem _ hr')
    rcases read_cases (hidx r List.mem_cons_self) with ⟨hno, heq⟩ | ⟨-, k, htakes⟩
    · -- The first read has changed nothing, so one of the others needs a zone.
      rw [ZoneState.reads, List.foldl_cons, heq]
      refine ih hrest fun hall => h fun r' hr' => ?_
      rcases List.mem_cons.mp hr' with rfl | hr'
      · exact hno
      · exact hall r' hr'
    · obtain ⟨ks, hgains⟩ := reads_gains (s := s.read sb bSize r) hrest
      refine ⟨k, htakes.lt, htakes.clear, ?_⟩
      have hset : rowBit (8 * sb.sBlocksize) (s.read sb bSize r).zmap k = true := by
        rw [htakes.set, if_pos rfl]
      rw [ZoneState.reads, List.foldl_cons]
      exact (hgains.set k).trans (by rw [hset, ite_self])

theorem reads_freeZones_lt {rs : List BlockRead}
    (hidx : ∀ r ∈ rs, sb.zoneOf bSize r.iblock < ZONE_PTR_IN_INODE_NUM)
    (h : ¬∀ r ∈ rs, s.NeedsNoZone sb bSize r) :
    sb.freeZones (s.reads sb bSize rs).zmap < sb.freeZones s.zmap := by
  obtain ⟨k, hk, hclear, hset⟩ := reads_take hidx h
  obtain ⟨ks, hgains⟩ := reads_gains (s := s) hidx
  apply Finset.card_lt_card
  refine ⟨fun i hi => ?_, fun hsub => ?_⟩
  · -- A zone that is free at the end was free at the start.
    obtain ⟨hi, hfree⟩ := Finset.mem_filter.mp hi
    rw [hgains.set] at hfree
    split at hfree
    · cases hfree
    · exact Finset.mem_filter.mpr ⟨hi, hfree⟩
  · have hmem := hsub (Finset.mem_filter.mpr ⟨Finset.mem_range.mpr hk, hclear⟩)
    cases hset.symm.trans (Finset.mem_filter.mp hmem).2

/-- Reads inside the nine zones leave the zone map and the zone pointers of every inode, and with
them the number of free zones, exactly when each of the blocks read has a zone, or no zone was free,
or blocks of this size do not divide a zone. -/
theorem reads_keep_iff {sb : Sb} {bSize : Nat} {s : ZoneState} {rs : List BlockRead}
    (hidx : ∀ r ∈ rs, sb.zoneOf bSize r.iblock < ZONE_PTR_IN_INODE_NUM) :
    ((s.reads sb bSize rs).zmap = s.zmap ∧
        (∀ ino, ((s.reads sb bSize rs).inodes ino).aiZonePtr = (s.inodes ino).aiZonePtr) ↔
      ∀ r ∈ rs, s.NeedsNoZone sb bSize r) ∧
    (sb.freeZones (s.reads sb bSize rs).zmap = sb.freeZones s.zmap ↔
      ∀ r ∈ rs, s.NeedsNoZone sb bSize r) := by
  refine ⟨⟨fun h => ?_, fun h => ?_⟩, ⟨fun h => ?_, fun h => ?_⟩⟩
  · by_contra hneeds
    exact Nat.lt_irrefl _ (h.1 ▸ reads_freeZones_lt hidx hneeds)
  · rw [reads_eq_self hidx h]
    exact ⟨rfl, fun _ => rfl⟩
  · by_contra hneeds
    exact absurd h (Nat.ne_of_lt (reads_freeZones_lt hidx hneeds))
  · rw [reads_eq_self hidx h]

end

/-- A file whose zone pointers are all `zone`, on a file system with every zone free. -/
def freeState (zone : Nat) : ZoneState where
  zmap := fun _ _ => 0
  inodes := fun _ => newInode fun _ => zone

/-- Reading the first blocks of the first two zones of file 2. -/
def twoReads : List BlockRead := [⟨2, 0, fun _ => 0⟩, ⟨2, 4, fun _ => 0⟩]

theorem twoReads_below :
    ∀ r ∈ twoReads, fourBlockZones.zoneOf 4096 r.iblock < ZONE_PTR_IN_INODE_NUM := by
  decide

/-- A file without holes. -/
theorem reads_keep_mapped :
    ((freeState 1028).reads fourBlockZones 4096 twoReads).zmap = (freeState 1028).zmap := by
  refine ((reads_keep_iff twoReads_below).1.mpr fun r hr => .inr (.inl ?_)).1
  rw [AufsInode.zonePtr, dif_pos (twoReads_below r hr)]
  exact Nat.succ_ne_zero 1027

/-- Reading two holes takes a zone that was free. -/
theorem reads_take_zones :
    ((freeState 0).reads fourBlockZones 4096 twoReads).zmap ≠ (freeState 0).zmap ∧
      fourBlockZones.freeZones ((freeState 0).reads fourBlockZones 4096 twoReads).zmap <
        fourBlockZones.freeZones (freeState 0).zmap := by
  have hneeds : ¬∀ r ∈ twoReads, (freeState 0).NeedsNoZone fourBlockZones 4096 r := by
    intro h
    rcases h ⟨2, 0, fun _ => 0⟩ (List.mem_cons_self ..) with hrej | hptr | hfull
    · exact absurd hrej (by rw [Sb.Rejects]; decide)
    · exact hptr rfl
    · exact absurd (hfull 0 (by decide)) (by decide)
  have hlt := reads_freeZones_lt twoReads_below hneeds
  exact ⟨fun h => Nat.lt_irrefl _ (h ▸ hlt), hlt⟩

end Aufs
