import Aufs.Lib.BitRow
import Aufs.Lib.PartialMap
import Aufs.Lib.Trace
import Aufs.Verify.Layout

/-! The allocators under concurrency. Calls of `aufs_new_zone` and `aufs_new_inode` run in any
interleaving of their critical sections: `aufs_new_zone` gives `bitmap_lock` back between two map
blocks, `aufs_new_inode` searches all blocks under it.

The result is `allocators_exact`: whoever is running, a call that succeeds takes the lowest index
that is clear at that moment, no index is handed out twice, and a call that finds a clear index
hands it out. -/

namespace Aufs
open Bytes Word

/-- The sections one after the other are the loop. -/
theorem aufsNewZoneLoop_section {sb : Sb} (hal : sb.sbi.asbAlignmentNumBlocks ≠ 0) (n i : Nat)
    (zmap : MapBlocks) :
    aufsNewZoneLoop sb.sbi (8 * sb.sBlocksize) (n + 1) i zmap =
      match aufsNewZoneSection sb i zmap with
      | (.returned ret, zmap) => (ret, zmap)
      | (_, zmap) => aufsNewZoneLoop sb.sbi (8 * sb.sBlocksize) n (i + 1) zmap := by
  rw [aufsNewZoneLoop, aufsNewZoneSection]
  simp only [if_neg hal]
  split
  · split
    · rfl
    · rfl
  · rfl

/-- All indices and block numbers stay below `2 ^ 31`. -/
structure Sb.Fits (sb : Sb) : Prop where
  zones : sb.sbi.asbZoneMapBlocks * (8 * sb.sBlocksize) ≤ 2 ^ 31
  inodes : sb.sbi.asbInodeMapBlocks * (8 * sb.sBlocksize) ≤ 2 ^ 31
  blocks : sb.sbi.asbZoneMapBlocks * (8 * sb.sBlocksize) * sb.sbi.asbBlocksPerZone +
    sb.sbi.dataBase < 2 ^ 31

/-! ## What a section does -/

section
variable {sb : Sb}

theorem Sb.Fits.zoneBlock_eq (F : sb.Fits)
    (hk : k < sb.sbi.asbZoneMapBlocks * (8 * sb.sBlocksize)) :
    sb.sbi.zoneBlock k = (k * sb.sbi.asbBlocksPerZone + sb.sbi.dataBase : Nat) := by
  have hmul := Nat.mul_le_mul_right sb.sbi.asbBlocksPerZone (Nat.le_of_lt hk)
  have hfit := F.blocks
  have hlt : k * sb.sbi.asbBlocksPerZone + sb.sbi.dataBase < 2 ^ 31 := by omega
  rw [AufsSuperBlock.zoneBlock, u64_of_lt (Nat.lt_trans hlt (by decide)), i32_of_lt hlt]

/-- The block is full, or its first clear bit is taken. -/
theorem aufsNewZoneSection_cases (F : sb.Fits) (hi : i < sb.sbi.asbZoneMapBlocks)
    (zmap : MapBlocks) :
    ((∀ j < 8 * sb.sBlocksize, bit (zmap i) j = true) ∧
      aufsNewZoneSection sb i zmap = (.next, zmap)) ∨
    ∃ j < 8 * sb.sBlocksize, bit (zmap i) j = false ∧ (∀ j' < j, bit (zmap i) j' = true) ∧
      aufsNewZoneSection sb i zmap =
        (if sb.sbi.asbAlignmentNumBlocks = 0 then .oops
          else .returned (sb.sbi.zoneBlock (i * (8 * sb.sBlocksize) + j)),
        Function.update zmap i (setBit (zmap i) j true)) := by
  have hzones := F.zones
  have hmul : (i + 1) * (8 * sb.sBlocksize) ≤ sb.sbi.asbZoneMapBlocks * (8 * sb.sBlocksize) :=
    Nat.mul_le_mul_right _ hi
  rw [Nat.add_mul, Nat.one_mul] at hmul
  by_cases hj : minixFindFirstZeroBit (zmap i) (8 * sb.sBlocksize) < 8 * sb.sBlocksize
  · refine .inr ⟨_, hj, minixFindFirstZeroBit_lt hj, fun _ hk => bit_before_firstZero hk, ?_⟩
    unfold aufsNewZoneSection
    simp only [if_pos hj]
    generalize minixFindFirstZeroBit (zmap i) (8 * sb.sBlocksize) = j at *
    have hidx : i32 ((j : Int) + (i : Int) * ((8 * sb.sBlocksize : Nat) : Int)) =
        (i * (8 * sb.sBlocksize) + j : Nat) := by
      have hcast : (j : Int) + (i : Int) * ((8 * sb.sBlocksize : Nat) : Int) =
          ((i * (8 * sb.sBlocksize) + j : Nat) : Int) := by
        push_cast
        ring
      rw [hcast, i32_of_lt (by omega)]
    rw [hidx, if_neg (by omega)]
    split
    · rfl
    · rfl
  · refine .inl ⟨fun _ hk => minixFindFirstZeroBit_full hj hk, ?_⟩
    unfold aufsNewZoneSection
    simp only [if_neg hj]

/-- Everything a critical section can do to the maps, by the call it belongs to and what comes out
of it. `new_inode` alone decides whether a call of `aufs_new_inode` has memory. -/
inductive AllocEffect (sb : Sb) (s s' : Alloc) : AllocOp → AllocOut → Prop
  | begin {t} : s'.zmap = s.zmap → s'.imap = s.imap →
    AllocEffect sb s s' (.beginZone t) .running
  | next {t} : s'.zmap = s.zmap → s'.imap = s.imap →
    AllocEffect sb s s' (.zoneSection t) .running
  | zone {t k} : Takes (8 * sb.sBlocksize) sb.sbi.asbZoneMapBlocks s.zmap s'.zmap k →
    s'.imap = s.imap → 0 < k * sb.sbi.asbBlocksPerZone + sb.sbi.dataBase →
    AllocEffect sb s s' (.zoneSection t)
      (.zone (k * sb.sbi.asbBlocksPerZone + sb.sbi.dataBase : Nat))
  | zonesFull {t} : s'.zmap = s.zmap → s'.imap = s.imap →
    RowFull (8 * sb.sBlocksize) sb.sbi.asbZoneMapBlocks s.zmap →
    AllocEffect sb s s' (.zoneSection t) (.zone 0)
  | oops {t k} : sb.sbi.asbAlignmentNumBlocks = 0 →
    Takes (8 * sb.sBlocksize) sb.sbi.asbZoneMapBlocks s.zmap s'.zmap k → s'.imap = s.imap →
    AllocEffect sb s s' (.zoneSection t) .oops
  | inode {task new dir mode inode} : inode.iIno ≠ 0 →
    inode = initInode task new dir mode inode.iIno →
    Takes (8 * sb.sBlocksize) sb.sbi.asbInodeMapBlocks s.imap s'.imap inode.iIno →
    s'.zmap = s.zmap → AllocEffect sb s s' (.newInode task (some new) dir mode) (.inode (.ok inode))
  | noMemory {task dir mode} : s'.zmap = s.zmap → s'.imap = s.imap →
    AllocEffect sb s s' (.newInode task none dir mode) (.inode (.error .enomem))
  | inodesFull {task new dir mode} : s'.zmap = s.zmap → s'.imap = s.imap →
    RowFull (8 * sb.sBlocksize) sb.sbi.asbInodeMapBlocks s.imap →
    AllocEffect sb s s' (.newInode task (some new) dir mode) (.inode (.error .enospc))
  | inodeZero {task new dir mode} :
    Takes (8 * sb.sBlocksize) sb.sbi.asbInodeMapBlocks s.imap s'.imap 0 → s'.zmap = s.zmap →
    AllocEffect sb s s' (.newInode task (some new) dir mode) (.inode (.error .enospc))

/-- The map blocks that a call of `aufs_new_zone` has passed are full. -/
def Alloc.Passed (sb : Sb) (s : Alloc) : Prop :=
  ∀ t i, s.zoneCalls t = some i → i ≤ sb.sbi.asbZoneMapBlocks ∧
    RowFull (8 * sb.sBlocksize) i s.zmap

theorem AufsSuperBlock.dataBase_pos {sbi : AufsSuperBlock} (hal : sbi.asbAlignmentNumBlocks ≠ 0) :
    0 < sbi.dataBase := by
  unfold dataBase integerRoundUpDivision
  apply Nat.mul_pos
  · exact Nat.div_pos (by omega) (by omega)
  · omega

/-- One step, in a state where passed blocks are full. -/
theorem AllocStep.effect {s s' : Alloc} (F : sb.Fits) (P : s.Passed sb)
    (h : AllocStep sb s op out s') : AllocEffect sb s s' op out := by
  cases h with
  | begin hidle => exact .begin rfl rfl
  | next hcall hi hsec =>
    rcases aufsNewZoneSection_cases F hi s.zmap with ⟨-, heq⟩ | ⟨j, -, -, -, heq⟩
    · cases heq.symm.trans hsec
      exact .next rfl rfl
    · rw [hsec] at heq
      split at heq
      · cases heq
      · cases heq
  | @returned t i ret zmap hcall hi hsec =>
    rcases aufsNewZoneSection_cases F hi s.zmap with ⟨-, heq⟩ | ⟨j, hj, hclear, hlow, heq⟩
    · cases heq.symm.trans hsec
    · have htakes := takes_of_block hi hj hclear (P t i hcall).2 hlow
      rw [hsec] at heq
      split at heq
      · cases heq
      · next hal =>
        obtain ⟨hret, rfl⟩ := Prod.mk.inj heq
        rw [ZoneSection.returned.inj hret, F.zoneBlock_eq htakes.lt]
        have hpos := AufsSuperBlock.dataBase_pos hal
        exact .zone htakes rfl (by omega)
  | @oops t i zmap hcall hi hsec =>
    rcases aufsNewZoneSection_cases F hi s.zmap with ⟨-, heq⟩ | ⟨j, hj, hclear, hlow, heq⟩
    · cases heq.symm.trans hsec
    · have htakes := takes_of_block hi hj hclear (P t i hcall).2 hlow
      rw [hsec] at heq
      split at heq
      · next hal =>
        cases heq
        exact .oops hal htakes rfl
      · cases heq
  | @full t i hcall hi =>
    obtain ⟨hle, hfull⟩ := P t i hcall
    obtain rfl : i = sb.sbi.asbZoneMapBlocks := Nat.le_antisymm hle hi
    exact .zonesFull rfl rfl hfull
  | @newInode task new dir mode ret imap hcall =>
    cases new with
    | none =>
      cases hcall
      exact .noMemory rfl rfl
    | some new =>
      rcases aufsNewInode_takes task sb s.imap new dir mode with
        ⟨hfull, heq⟩ | ⟨k, imap', htakes, heq⟩
      · cases heq.symm.trans hcall
        exact .inodesFull rfl rfl hfull
      · cases heq.symm.trans hcall
        by_cases h0 : k = 0
        · rw [if_pos h0]
          exact .inodeZero (h0 ▸ htakes) rfl
        · rw [if_neg h0]
          exact .inode h0 rfl htakes rfl

/-- Only the maps count. -/
theorem AllocEffect.congr {s₁ s s' : Alloc} (h : AllocEffect sb s₁ s' op out)
    (hz : s₁.zmap = s.zmap) (hi : s₁.imap = s.imap) : AllocEffect sb s s' op out := by
  obtain ⟨zmap, imap, calls⟩ := s₁
  obtain ⟨zmap', imap', calls'⟩ := s
  obtain rfl : zmap = zmap' := hz
  obtain rfl : imap = imap' := hi
  cases h with
  | begin h₁ h₂ => exact .begin h₁ h₂
  | next h₁ h₂ => exact .next h₁ h₂
  | zone h₁ h₂ h₃ => exact .zone h₁ h₂ h₃
  | zonesFull h₁ h₂ h₃ => exact .zonesFull h₁ h₂ h₃
  | oops h₁ h₂ h₃ => exact .oops h₁ h₂ h₃
  | inode h₁ h₂ h₃ h₄ => exact .inode h₁ h₂ h₃ h₄
  | noMemory h₁ h₂ => exact .noMemory h₁ h₂
  | inodesFull h₁ h₂ h₃ => exact .inodesFull h₁ h₂ h₃
  | inodeZero h₁ h₂ => exact .inodeZero h₁ h₂

/-- No section clears a bit of the zone map. -/
theorem AllocEffect.zmap_mono {s s' : Alloc} (h : AllocEffect sb s s' op out)
    (hk : rowBit (8 * sb.sBlocksize) s.zmap k = true) :
    rowBit (8 * sb.sBlocksize) s'.zmap k = true := by
  cases h with
  | zone htakes | oops _ htakes => exact htakes.mono hk
  | begin hz | next hz | zonesFull hz | noMemory hz | inodesFull hz => rwa [hz]
  | inode _ _ _ hz | inodeZero _ hz => rwa [hz]

/-- Nor one of the inode map. -/
theorem AllocEffect.imap_mono {s s' : Alloc} (h : AllocEffect sb s s' op out)
    (hk : rowBit (8 * sb.sBlocksize) s.imap k = true) :
    rowBit (8 * sb.sBlocksize) s'.imap k = true := by
  cases h with
  | inode _ _ htakes | inodeZero htakes => exact htakes.mono hk
  | begin _ hi | next _ hi | zonesFull _ hi | noMemory _ hi | inodesFull _ hi => rwa [hi]
  | zone _ hi | oops _ _ hi => rwa [hi]

theorem AllocStep.passed {s s' : Alloc} (F : sb.Fits) (P : s.Passed sb)
    (h : AllocStep sb s op out s') : s'.Passed sb := by
  have hmono : ∀ i, RowFull (8 * sb.sBlocksize) i s.zmap → RowFull (8 * sb.sBlocksize) i s'.zmap :=
    fun i hfull k hk => (h.effect F P).zmap_mono (hfull k hk)
  -- what other calls have passed stays full; only the call that moved is looked at below
  have hother : ∀ t' i', s.zoneCalls t' = some i' → i' ≤ sb.sbi.asbZoneMapBlocks ∧
      RowFull (8 * sb.sBlocksize) i' s'.zmap :=
    fun t' i' hcall => ⟨(P t' i' hcall).1, hmono i' (P t' i' hcall).2⟩
  have hmoved : ∀ (t : Nat) (now : Option Nat),
      (∀ i, now = some i → i ≤ sb.sbi.asbZoneMapBlocks ∧ RowFull (8 * sb.sBlocksize) i s'.zmap) →
      s'.zoneCalls = Function.update s.zoneCalls t now → s'.Passed sb := by
    intro t now hnow hcalls t' i' hcall
    rw [hcalls] at hcall
    rcases PartialMap.update_eq_some hcall with ⟨-, hcall⟩ | ⟨-, hcall⟩
    · exact hnow i' hcall
    · exact hother t' i' hcall
  cases h with
  | @begin t =>
    refine hmoved t (some 0) ?_ rfl
    rintro i ⟨⟩
    refine ⟨Nat.zero_le _, ?_⟩
    intro k hk
    omega
  | @next t i zmap hcall hi hsec =>
    refine hmoved t (some (i + 1)) ?_ rfl
    rintro i' ⟨⟩
    refine ⟨hi, ?_⟩
    rcases aufsNewZoneSection_cases F hi s.zmap with ⟨hblock, heq⟩ | ⟨j, -, -, -, heq⟩
    · cases heq.symm.trans hsec
      exact (P t i hcall).2.succ hblock
    · rw [hsec] at heq
      split at heq
      · cases heq
      · cases heq
  | @returned t | @oops t | @full t => exact hmoved t none (by rintro i ⟨⟩) rfl
  | newInode => exact hother

/-! ## Runs -/

/-- What a call that succeeded has returned: a zone, which is not 0. -/
def AllocOut.zones : AllocOut → List Int
  | .zone ret => if ret = 0 then [] else [ret]
  | _ => []

def AllocOut.inodes : AllocOut → List Nat
  | .inode (.ok made) => [made.iIno]
  | _ => []

/-- The zones that the calls of a history have returned, in order. -/
def zonesReturned (hist : List (AllocOp × AllocOut)) : List Int := hist.flatMap fun e => e.2.zones

/-- The numbers of the inodes that they have returned. -/
def inodesReturned (hist : List (AllocOp × AllocOut)) : List Nat := hist.flatMap fun e => e.2.inodes

/-- What has been returned so far is marked in the maps, and nothing was returned twice. -/
structure Handed (sb : Sb) (hist : List (AllocOp × AllocOut)) (s : Alloc) : Prop where
  zones : ∃ ks, Taken (8 * sb.sBlocksize) s.zmap ks ∧ zonesReturned hist =
    ks.map fun k => ((k * sb.sbi.asbBlocksPerZone + sb.sbi.dataBase : Nat) : Int)
  inodes : Taken (8 * sb.sBlocksize) s.imap (inodesReturned hist)

theorem Handed.step {s s' : Alloc} (H : Handed sb hist s) (e : AllocEffect sb s s' op out) :
    Handed sb (hist ++ [(op, out)]) s' := by
  obtain ⟨ks, htaken, hks⟩ := H.zones
  have hzones : zonesReturned (hist ++ [(op, out)]) = zonesReturned hist ++ out.zones := by
    simp [zonesReturned]
  have hinodes : inodesReturned (hist ++ [(op, out)]) = inodesReturned hist ++ out.inodes := by
    simp [inodesReturned]
  have hz : Taken (8 * sb.sBlocksize) s'.zmap ks :=
    ⟨fun k hk => e.zmap_mono (htaken.set k hk), htaken.nodup⟩
  have hi : Taken (8 * sb.sBlocksize) s'.imap (inodesReturned hist) :=
    ⟨fun k hk => e.imap_mono (H.inodes.set k hk), H.inodes.nodup⟩
  cases e with
  | @zone _ k htakes himap hpos =>
    have hne : ((k * sb.sbi.asbBlocksPerZone + sb.sbi.dataBase : Nat) : Int) ≠ 0 := by omega
    refine ⟨⟨ks ++ [k], htaken.snoc htakes, ?_⟩, ?_⟩
    · rw [hzones, hks, AllocOut.zones, if_neg hne, List.map_append, List.map_singleton]
    · rw [hinodes]
      change Taken _ _ (inodesReturned hist ++ [])
      rwa [List.append_nil]
  | inode _ _ htakes hzmap =>
    refine ⟨⟨ks, hz, ?_⟩, ?_⟩
    · rw [hzones, hks]
      exact List.append_nil _
    · rw [hinodes]
      exact H.inodes.snoc htakes
  | begin | next | zonesFull | oops | noMemory | inodesFull | inodeZero =>
    refine ⟨⟨ks, hz, ?_⟩, ?_⟩
    · rw [hzones, hks]
      exact List.append_nil _
    · rw [hinodes]
      change Taken _ _ (inodesReturned hist ++ [])
      rwa [List.append_nil]

theorem run_passed {s₀ s : Alloc} (F : sb.Fits) (hidle : ∀ t, s₀.zoneCalls t = none)
    (run : Trace (AllocStep sb) s₀ hist s) : s.Passed sb := by
  have hinit : s₀.Passed sb := by
    intro t i hcall
    rw [hidle t] at hcall
    cases hcall
  exact run.invariant hinit fun P hs => hs.passed F P

theorem run_imap_mono {s₀ s : Alloc} (F : sb.Fits) (hidle : ∀ t, s₀.zoneCalls t = none)
    (run : Trace (AllocStep sb) s₀ hist s) (hk : rowBit (8 * sb.sBlocksize) s₀.imap k = true) :
    rowBit (8 * sb.sBlocksize) s.imap k = true := by
  induction run with
  | nil => exact hk
  | snoc run hs ih => exact (hs.effect F (run_passed F hidle run)).imap_mono ih

theorem run_handed {s₀ s : Alloc} (F : sb.Fits) (hidle : ∀ t, s₀.zoneCalls t = none)
    (run : Trace (AllocStep sb) s₀ hist s) : Handed sb hist s := by
  have hinit : Handed sb [] s₀ := ⟨⟨[], .nil, rfl⟩, .nil⟩
  exact run.simulation (run_passed F hidle) hinit fun P H hs => H.step (hs.effect F P)

/-- With memory at hand and a bit free in the map, and bit 0 not free, `aufs_new_inode` hands out an
inode. -/
theorem newInode_ok {s : Alloc} (task : Task) (new dir : AufsInode) (mode : Nat)
    (h0 : rowBit (8 * sb.sBlocksize) s.imap 0 = true)
    (hfree : ¬RowFull (8 * sb.sBlocksize) sb.sbi.asbInodeMapBlocks s.imap) :
    ∃ k imap, k ≠ 0 ∧ Takes (8 * sb.sBlocksize) sb.sbi.asbInodeMapBlocks s.imap imap k ∧
      AllocStep sb s (.newInode task (some new) dir mode)
        (.inode (.ok (initInode task new dir mode k))) { s with imap } := by
  rcases aufsNewInode_takes task sb s.imap new dir mode with ⟨hfull, -⟩ | ⟨k, imap, htakes, heq⟩
  · exact absurd hfull hfree
  · have hk : k ≠ 0 := by
      rintro rfl
      cases h0.symm.trans htakes.clear
    rw [if_neg hk] at heq
    exact ⟨k, imap, hk, htakes, .newInode heq⟩

/-- A call of `aufs_new_zone` that nobody interrupts, from map block `i` on: it returns what the
loop returns. -/
theorem zoneCall_alone (F : sb.Fits) (hal : sb.sbi.asbAlignmentNumBlocks ≠ 0) {n i t : Nat}
    (hn : n + i = sb.sbi.asbZoneMapBlocks) {s : Alloc} (hcall : s.zoneCalls t = some i) :
    ∃ hist s₁ s' ret, Trace (AllocStep sb) s hist s₁ ∧ (∀ e ∈ hist, e.1 = .zoneSection t) ∧
      s₁.zmap = s.zmap ∧ s₁.imap = s.imap ∧ AllocStep sb s₁ (.zoneSection t) (.zone ret) s' ∧
      (ret, s'.zmap) = aufsNewZoneLoop sb.sbi (8 * sb.sBlocksize) n i s.zmap := by
  induction n generalizing i s with
  | zero => exact ⟨[], s, _, 0, .nil, by simp, rfl, rfl, .full hcall (by omega), rfl⟩
  | succ n ih =>
    rw [aufsNewZoneLoop_section hal]
    rcases aufsNewZoneSection_cases F (show i < sb.sbi.asbZoneMapBlocks by omega) s.zmap with
      ⟨-, heq⟩ | ⟨j, -, -, -, heq⟩
    · have hstep : AllocStep sb s (.zoneSection t) .running
          { s with zoneCalls := Function.update s.zoneCalls t (some (i + 1)) } :=
        .next hcall (by omega) heq
      have hmoved : ({ s with zoneCalls := Function.update s.zoneCalls t (some (i + 1)) } :
          Alloc).zoneCalls t = some (i + 1) := Function.update_self ..
      obtain ⟨hist, s₁, s', ret, run, hops, hzmap, himap, hlast, hret⟩ := ih (by omega) hmoved
      refine ⟨(.zoneSection t, .running) :: hist, s₁, s', ret, (Trace.single hstep).append run, ?_,
        hzmap, himap, hlast, by rw [heq]; exact hret⟩
      intro e he
      rcases List.mem_cons.mp he with rfl | he
      · rfl
      · exact hops e he
    · rw [if_neg hal] at heq
      exact ⟨[], s, _, _, .nil, by simp, rfl, rfl, .returned hcall (by omega) heq, by rw [heq]⟩

end

/-- In every interleaving of calls, over maps of any size and content: no zone and no inode number
is returned twice, and a critical section does to the maps what `AllocEffect` says: a call that
succeeds takes the lowest clear index and no other bit, the zone it returns is not 0 and the inode
has not the number 0; a call that fails for lack of space has found every bit set, or has found bit
0 of the inode map clear, which mounting excludes. A call of `aufs_new_zone` that runs alone
returns what the sequential function returns, and with bit 0 set, memory at hand and a bit free
`aufs_new_inode` hands out an inode. -/
theorem allocators_exact {dsb : Mem} {sb : Sb} (hsb : sb = aufsFillSb dsb) (F : sb.Fits)
    {s₀ s : Alloc} {hist : List (AllocOp × AllocOut)} (hidle : ∀ t, s₀.zoneCalls t = none)
    (run : Trace (AllocStep sb) s₀ hist s) :
    (zonesReturned hist).Nodup ∧ (inodesReturned hist).Nodup ∧
    (∀ op out s', AllocStep sb s op out s' → AllocEffect sb s s' op out) ∧
    (rowBit (8 * sb.sBlocksize) s₀.imap 0 = true → ∀ op s',
      AllocStep sb s op (.inode (.error .enospc)) s' →
        s'.imap = s.imap ∧ RowFull (8 * sb.sBlocksize) sb.sbi.asbInodeMapBlocks s.imap) ∧
    (sb.sbi.asbAlignmentNumBlocks ≠ 0 → ∀ t, s.zoneCalls t = none →
      ∃ alone s₁ s' ret, Trace (AllocStep sb) s alone s₁ ∧
        (∀ e ∈ alone, e.1 = .beginZone t ∨ e.1 = .zoneSection t) ∧
        AllocStep sb s₁ (.zoneSection t) (.zone ret) s' ∧
        (ret, s'.zmap) = aufsNewZone sb s.zmap ∧
        AllocEffect sb s s' (.zoneSection t) (.zone ret)) ∧
    (rowBit (8 * sb.sBlocksize) s₀.imap 0 = true →
      ¬RowFull (8 * sb.sBlocksize) sb.sbi.asbInodeMapBlocks s.imap → ∀ task new dir mode,
      ∃ k imap, k ≠ 0 ∧ Takes (8 * sb.sBlocksize) sb.sbi.asbInodeMapBlocks s.imap imap k ∧
        AllocStep sb s (.newInode task (some new) dir mode)
          (.inode (.ok (initInode task new dir mode k))) { s with imap }) := by
  have hbpz : 1 ≤ sb.sbi.asbBlocksPerZone := hsb ▸ aufsFillSb_blocksPerZone_pos dsb
  have P := run_passed F hidle run
  obtain ⟨⟨ks, htaken, hks⟩, hinodes⟩ := run_handed F hidle run
  have hmarked : rowBit (8 * sb.sBlocksize) s₀.imap 0 = true →
      rowBit (8 * sb.sBlocksize) s.imap 0 = true := fun h0 => run_imap_mono F hidle run h0
  refine ⟨?_, hinodes.nodup, fun op out s' hs => hs.effect F P, ?_, ?_,
    fun h0 hfree task new dir mode => newInode_ok task new dir mode (hmarked h0) hfree⟩
  · rw [hks]
    refine htaken.nodup.map ?_
    intro k k' heq
    have hmul : k * sb.sbi.asbBlocksPerZone = k' * sb.sbi.asbBlocksPerZone := by
      simp only at heq
      omega
    exact Nat.eq_of_mul_eq_mul_right hbpz hmul
  · intro h0 op s' hs
    generalize hout : AllocOut.inode (.error .enospc) = out at hs
    cases hs.effect F P with
    | inodesFull _ himap hfull => exact ⟨himap, hfull⟩
    | inodeZero htakes => cases (hmarked h0).symm.trans htakes.clear
    | _ => cases hout
  · intro hal t hcall
    have hbegin : AllocStep sb s (.beginZone t) .running
        { s with zoneCalls := Function.update s.zoneCalls t (some 0) } := .begin hcall
    have hmoved : ({ s with zoneCalls := Function.update s.zoneCalls t (some 0) } :
        Alloc).zoneCalls t = some 0 := Function.update_self ..
    obtain ⟨alone, s₁, s', ret, run', hops, hzmap, himap, hlast, hret⟩ :=
      zoneCall_alone F hal (Nat.add_zero _) hmoved
    have run₁ := (Trace.single hbegin).append run'
    refine ⟨_, s₁, s', ret, run₁, ?_, hlast, hret, ?_⟩
    · intro e he
      rcases List.mem_cons.mp he with rfl | he
      · exact .inl rfl
      · exact .inr (hops e he)
    · have effect := hlast.effect F (run_passed F hidle (run.append run₁))
      exact effect.congr hzmap himap

/-- The first clear bit of a block, named. -/
theorem aufsNewZoneSection_of_lowest (F : sb.Fits) (hal : sb.sbi.asbAlignmentNumBlocks ≠ 0)
    (hi : i < sb.sbi.asbZoneMapBlocks) {zmap : MapBlocks} (hj : j < 8 * sb.sBlocksize)
    (hclear : bit (zmap i) j = false) (hlow : ∀ j' < j, bit (zmap i) j' = true) :
    aufsNewZoneSection sb i zmap =
      (.returned (sb.sbi.zoneBlock (i * (8 * sb.sBlocksize) + j)),
        Function.update zmap i (setBit (zmap i) j true)) := by
  rcases aufsNewZoneSection_cases F hi zmap with ⟨hfull, -⟩ | ⟨j', -, hclear', hlow', heq⟩
  · cases (hfull j hj).symm.trans hclear
  · rw [if_neg hal] at heq
    rcases Nat.lt_trichotomy j' j with hlt | rfl | hgt
    · cases (hlow j' hlt).symm.trans hclear'
    · exact heq
    · cases (hlow' j hgt).symm.trans hclear

/-- Two blank maps, and no call running. -/
def blankAlloc : Alloc := { zmap := fun _ _ => 0, imap := fun _ _ => 0, zoneCalls := fun _ => none }

theorem rowBit_blank (bits k : Nat) : rowBit bits (fun _ _ => 0) k = false := by
  simp [rowBit, bit]

theorem eightZones_fits {sb : Sb} (R : sb.Reads eightZones) (H : eightZones.Accepted) :
    sb.Fits := by
  refine ⟨?_, ?_, ?_⟩
  · rw [R.zoneMapBlocks, R.blocksize]
    decide
  · rw [R.inodeMapBlocks, R.blocksize]
    decide
  · rw [R.zoneMapBlocks, R.blocksize, R.blocksPerZone, R.dataBase_eq H]
    decide

/-- Bit 0 of the inode map set, as mounting leaves it. -/
def markedAlloc : Alloc := { blankAlloc with imap := fun _ => setBit (fun _ => 0) 0 true }

theorem bit_marked (k : Nat) : bit (setBit (fun _ => 0) 0 true) k = decide (k = 0) := by
  rw [bit_setBit]
  by_cases hk : k = 0
  · simp [hk]
  · simp [hk, bit]

/-- Two calls of `aufs_new_zone` that race for bit 0: the second one that comes to it takes the
next. -/
theorem markedAlloc_race {sb : Sb} (F : sb.Fits) (hal : sb.sbi.asbAlignmentNumBlocks ≠ 0)
    (hi : 0 < sb.sbi.asbZoneMapBlocks) (hbits : 2 ≤ 8 * sb.sBlocksize) :
    ∃ s, Trace (AllocStep sb) markedAlloc
        [(.beginZone 0, .running), (.beginZone 1, .running),
          (.zoneSection 1, .zone sb.sbi.dataBase),
          (.zoneSection 0, .zone (sb.sbi.asbBlocksPerZone + sb.sbi.dataBase : Nat))] s ∧
      s.imap = markedAlloc.imap := by
  have hmapped : 2 ≤ sb.sbi.asbZoneMapBlocks * (8 * sb.sBlocksize) :=
    Nat.le_trans hbits (Nat.le_mul_of_pos_left _ hi)
  have hblank : bit (markedAlloc.zmap 0) 0 = false := by simp [markedAlloc, blankAlloc, bit]
  have hfirst := aufsNewZoneSection_of_lowest F hal hi (by omega) hblank (by omega)
  rw [F.zoneBlock_eq (by omega), Nat.zero_mul, Nat.zero_add, Nat.zero_mul, Nat.zero_add] at hfirst
  -- the call that comes second finds bit 0 set
  have hlow : ∀ j' < 1, bit (Function.update markedAlloc.zmap 0
      (setBit (markedAlloc.zmap 0) 0 true) 0) j' = true := by
    intro j' hj'
    rw [Nat.lt_one_iff.mp hj', Function.update_self]
    exact bit_marked 0
  have hclear : bit (Function.update markedAlloc.zmap 0
      (setBit (markedAlloc.zmap 0) 0 true) 0) 1 = false := by
    rw [Function.update_self]
    exact bit_marked 1
  have hsecond := aufsNewZoneSection_of_lowest F hal hi (by omega) hclear hlow
  rw [F.zoneBlock_eq (by omega), Nat.zero_mul, Nat.zero_add, Nat.one_mul] at hsecond
  have run : Trace (AllocStep sb) markedAlloc ([] ++ [(.beginZone 0, .running)] ++
      [(.beginZone 1, .running)] ++ [(.zoneSection 1, .zone _)] ++ [(.zoneSection 0, .zone _)]) _ :=
    (((Trace.nil.snoc (.begin rfl)).snoc (.begin rfl)).snoc (.returned rfl hi hfirst)).snoc
      (.returned rfl hi hsecond)
  exact ⟨_, run, rfl⟩

/-- The race, and an inode after it. -/
theorem allocators_eightZones :
    ∃ sb s made z₀ z₁, Trace (AllocStep sb) markedAlloc
        [(.beginZone 0, .running), (.beginZone 1, .running), (.zoneSection 1, .zone z₀),
          (.zoneSection 0, .zone z₁),
          (.newInode ⟨0, 0, 0⟩ (some (newInode fun _ => 0)) (newInode fun _ => 0) S_IFREG,
            .inode (.ok made))] s ∧
      0 < z₀ ∧ 0 < z₁ ∧ z₀ ≠ z₁ ∧ made.iIno = 1 ∧
      ∀ op out s', AllocStep sb s op out s' → AllocEffect sb s s' op out := by
  have H := accepted_of_parseArgs eightZones_parsed
  obtain ⟨image, -, -, R⟩ := exists_image H rootEnv (blankDevice (2 ^ 20))
  have F := eightZones_fits R H
  have hal : (aufsFillSb image.superBlock).sbi.asbAlignmentNumBlocks ≠ 0 := by
    rw [R.alignment]
    decide
  have hzmaps : 0 < (aufsFillSb image.superBlock).sbi.asbZoneMapBlocks := by
    rw [R.zoneMapBlocks]
    decide
  have himaps : 0 < (aufsFillSb image.superBlock).sbi.asbInodeMapBlocks := by
    rw [R.inodeMapBlocks]
    decide
  have hbits : 2 ≤ 8 * (aufsFillSb image.superBlock).sBlocksize := by
    rw [R.blocksize]
    decide
  generalize hsb : aufsFillSb image.superBlock = sb at *
  obtain ⟨s, run, himap⟩ := markedAlloc_race F hal hzmaps hbits
  have hmarked : ∀ k, rowBit (8 * sb.sBlocksize) markedAlloc.imap k =
      decide (k % (8 * sb.sBlocksize) = 0) := fun k => bit_marked _
  have hone : rowBit (8 * sb.sBlocksize) s.imap 1 = false := by
    rw [himap, hmarked, Nat.mod_eq_of_lt (by omega)]
    rfl
  have hzero : rowBit (8 * sb.sBlocksize) markedAlloc.imap 0 = true := by
    rw [hmarked, Nat.zero_mod]
    rfl
  have hfree : ¬RowFull (8 * sb.sBlocksize) sb.sbi.asbInodeMapBlocks s.imap := by
    intro hfull
    have hlt : 1 < sb.sbi.asbInodeMapBlocks * (8 * sb.sBlocksize) :=
      Nat.lt_of_lt_of_le (by omega) (Nat.le_mul_of_pos_left _ himaps)
    cases (hfull 1 hlt).symm.trans hone
  obtain ⟨hzones, -, -, -, -, hnew⟩ := allocators_exact hsb.symm F (fun _ => rfl) run
  obtain ⟨k, imap, hk, htakes, hstep⟩ := hnew hzero hfree ⟨0, 0, 0⟩ (newInode fun _ => 0)
    (newInode fun _ => 0) S_IFREG
  have hk1 : k = 1 := by
    by_contra hne
    cases (htakes.lowest 1 (by omega)).symm.trans hone
  have run' := run.snoc hstep
  have hpos := AufsSuperBlock.dataBase_pos hal
  refine ⟨sb, _, _, _, _, run', by omega, by omega, ?_, hk1,
    (allocators_exact hsb.symm F (fun _ => rfl) run').2.2.1⟩
  -- no zone is returned twice
  intro heq
  have hne : (sb.sbi.dataBase : Int) ≠ 0 := by omega
  simp only [zonesReturned, AllocOut.zones, ← heq, if_neg hne, List.flatMap_cons, List.flatMap_nil,
    List.nil_append, List.append_nil, List.singleton_append] at hzones
  exact (List.nodup_cons.mp hzones).1 (List.mem_singleton_self _)

/-- With bit 0 of the inode map clear, `aufs_new_inode` finds no space though every bit is free. -/
theorem newInode_zero_lost :
    ∃ sb s', sb.Fits ∧ (∃ dsb, sb = aufsFillSb dsb) ∧
      AllocStep sb blankAlloc
        (.newInode ⟨0, 0, 0⟩ (some (newInode fun _ => 0)) (newInode fun _ => 0) S_IFREG)
        (.inode (.error .enospc)) s' ∧
      ¬RowFull (8 * sb.sBlocksize) sb.sbi.asbInodeMapBlocks blankAlloc.imap := by
  have H := accepted_of_parseArgs eightZones_parsed
  obtain ⟨image, -, -, R⟩ := exists_image H rootEnv (blankDevice (2 ^ 20))
  have hfree : ¬RowFull (8 * (aufsFillSb image.superBlock).sBlocksize)
      (aufsFillSb image.superBlock).sbi.asbInodeMapBlocks blankAlloc.imap := by
    rw [R.inodeMapBlocks, R.blocksize]
    intro hfull
    cases (hfull 0 (by decide)).symm.trans (rowBit_blank _ 0)
  rcases aufsNewInode_takes ⟨0, 0, 0⟩ (aufsFillSb image.superBlock) blankAlloc.imap
    (newInode fun _ => 0) (newInode fun _ => 0) S_IFREG with ⟨hfull, -⟩ | ⟨k, imap', htakes, heq⟩
  · exact absurd hfull hfree
  · have hk : k = 0 := by
      by_contra hne
      cases (htakes.lowest 0 (by omega)).symm.trans (rowBit_blank _ 0)
    rw [if_pos hk] at heq
    exact ⟨_, _, eightZones_fits R H, ⟨_, rfl⟩, .newInode heq, hfree⟩

end Aufs
