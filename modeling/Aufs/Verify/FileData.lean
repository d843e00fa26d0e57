import Aufs.Kern.File
import Aufs.Lib.AddressMap
import Aufs.Lib.PartialMap
import Aufs.Lib.Trace
import Aufs.Verify.GetBlock
import Aufs.Verify.Layout
import Mathlib.Data.Fintype.Card

/-! File data on a mounted image. Every zone pointer of every file is the start of a zone of its
own whose bit is set (`FileSys.Inv`), so the translation from a file offset to a byte of the device
is injective, and the device holds one independent byte array per file. -/

namespace Aufs
open Bytes Word

variable {config : Configuration} {sb : Sb} {behind : Nat → Nat}

namespace FileSys

variable {s s' s'' : FileSys}

/-! ## The invariant -/

/-- `p` is the zone pointer `i` of file `ino`. -/
def Ptr (s : FileSys) (ino : Nat) (i : Fin ZONE_PTR_IN_INODE_NUM) (p : Nat) : Prop :=
  ∃ inode, s.files ino = some inode ∧ inode.aiZonePtr i = p ∧ p ≠ 0

structure Inv (config : Configuration) (sb : Sb) (s : FileSys) : Prop where
  /-- Only bits of real zones are clear. -/
  clear : ∀ j < 8 * sb.sBlocksize, bit (s.zmap 0) j = false → 2 ≤ j ∧ j < config.numZones
  named : ∀ ino inode, s.files ino = some inode → bit (s.imap 0) ino = true
  owned : ∀ ino i p, s.Ptr ino i p →
    ∃ j, 2 ≤ j ∧ j < config.numZones ∧ bit (s.zmap 0) j = true ∧ p = sb.zoneStart config j
  distinct : ∀ ino i ino' i' p, s.Ptr ino i p → s.Ptr ino' i' p → ino = ino' ∧ i = i'

/-- What an operation on `ino` may do to everything but the device's bytes. -/
structure Grows (config : Configuration) (sb : Sb) (ino : Nat) (s s' : FileSys) : Prop where
  imap : s'.imap = s.imap
  size : s'.dev.size = s.dev.size
  others : ∀ ino', ino' ≠ ino → s'.files ino' = s.files ino'
  sized : ∀ ino' inode, s.files ino' = some inode →
    ∃ inode', s'.files ino' = some inode' ∧ inode.iSize ≤ inode'.iSize
  ptr : ∀ ino' i p, s.Ptr ino' i p → s'.Ptr ino' i p
  zmap : ∀ j, bit (s'.zmap 0) j ≠ bit (s.zmap 0) j →
    bit (s.zmap 0) j = false ∧ ∃ i, s'.Ptr ino i (sb.zoneStart config j)

namespace Grows

theorem refl : Grows config sb ino s s where
  imap := rfl
  size := rfl
  others _ _ := rfl
  sized _ inode h := ⟨inode, h, Nat.le_refl _⟩
  ptr _ _ _ h := h
  zmap _ h := absurd rfl h

theorem trans (h : Grows config sb ino s s') (h' : Grows config sb ino s' s'') :
    Grows config sb ino s s'' where
  imap := h'.imap.trans h.imap
  size := h'.size.trans h.size
  others ino' hne := (h'.others ino' hne).trans (h.others ino' hne)
  sized ino' inode hi := by
    obtain ⟨inode', hi', hsize⟩ := h.sized ino' inode hi
    obtain ⟨inode'', hi'', hsize'⟩ := h'.sized ino' inode' hi'
    exact ⟨inode'', hi'', Nat.le_trans hsize hsize'⟩
  ptr ino' i p hp := h'.ptr ino' i p (h.ptr ino' i p hp)
  zmap j hj := by
    by_cases heq : bit (s'.zmap 0) j = bit (s.zmap 0) j
    · rw [← heq] at hj ⊢
      exact h'.zmap j hj
    · obtain ⟨hbit, i, hp⟩ := h.zmap j heq
      exact ⟨hbit, i, h'.ptr _ _ _ hp⟩

end Grows

/-! ## Mapping a block -/

/-- File `ino`, whose inode is `inode`, takes zone `j` for its pointer `i`. -/
def takeZone (config : Configuration) (sb : Sb) (s : FileSys) (ino : Nat) (inode : AufsInode)
    (i : Fin ZONE_PTR_IN_INODE_NUM) (j : Nat) : FileSys :=
  { s with
    zmap := Function.update s.zmap 0 (minixSetBit j (s.zmap 0))
    files := Function.update s.files ino (some (inode.setZonePtr i (sb.zoneStart config j))) }

theorem bit_takeZone : bit ((takeZone config sb s ino inode i j).zmap 0) k =
    if k = j then true else bit (s.zmap 0) k := by
  simp [takeZone, minixSetBit]

theorem takeZone_files_self : (takeZone config sb s ino inode i j).files ino =
    some (inode.setZonePtr i (sb.zoneStart config j)) := by
  simp [takeZone]

section
variable {i : Fin ZONE_PTR_IN_INODE_NUM} (hi : s.files ino = some inode)
  (h0 : inode.aiZonePtr i = 0)
include hi h0

/-- The pointers afterwards are the pointers before and the new one. -/
theorem ptr_takeZone (hstart : sb.zoneStart config j ≠ 0) :
    (takeZone config sb s ino inode i j).Ptr ino' i' p ↔
      s.Ptr ino' i' p ∨ ino' = ino ∧ i' = i ∧ p = sb.zoneStart config j := by
  simp only [Ptr, takeZone, Function.update_apply]
  by_cases hino : ino' = ino
  · subst hino
    by_cases hidx : i' = i
    · subst hidx
      simp only [if_true, Option.some.injEq, hi, exists_eq_left', AufsInode.setZonePtr_self, h0]
      constructor
      · rintro ⟨rfl, -⟩
        exact .inr ⟨trivial, trivial, rfl⟩
      · rintro (⟨rfl, hne⟩ | ⟨-, -, rfl⟩)
        · exact absurd rfl hne
        · exact ⟨rfl, hstart⟩
    · simp [hi, hidx, AufsInode.setZonePtr_of_ne]
  · simp [hino]

theorem Inv.takeZone (M : Mounted config sb) (I : Inv config sb s) (hj2 : 2 ≤ j)
    (hjn : j < config.numZones) (hbit : bit (s.zmap 0) j = false) :
    Inv config sb (takeZone config sb s ino inode i j) := by
  have hstart : sb.zoneStart config j ≠ 0 := by
    have := M.zoneStart_ge hj2
    omega
  -- a pointer into zone `j` would have its bit set
  have hfresh : ∀ ino' i' p, s.Ptr ino' i' p → p ≠ sb.zoneStart config j := by
    rintro ino' i' p hp rfl
    obtain ⟨k, -, -, hk, heq⟩ := I.owned _ _ _ hp
    have hpos := M.accepted.blocksPerZone_pos
    have heq : 0 + sb.zoneStart config j = 0 + sb.zoneStart config k := by rw [heq]
    rw [(Mounted.zoneStart_inj heq hpos hpos).1, hk] at hbit
    cases hbit
  constructor
  · intro k hk hclear
    rw [bit_takeZone] at hclear
    split at hclear
    · cases hclear
    · exact I.clear k hk hclear
  · intro ino' inode' h
    change (Function.update s.files ino _) ino' = _ at h
    rcases PartialMap.update_eq_some h with ⟨rfl, -⟩ | ⟨-, h⟩
    · exact I.named _ inode hi
    · exact I.named ino' inode' h
  · intro ino' i' p hp
    rcases (ptr_takeZone hi h0 hstart).mp hp with hp | ⟨rfl, rfl, rfl⟩
    · obtain ⟨k, hk2, hkn, hk, rfl⟩ := I.owned _ _ _ hp
      refine ⟨k, hk2, hkn, ?_, rfl⟩
      rw [bit_takeZone, hk, ite_self]
    · exact ⟨j, hj2, hjn, by rw [bit_takeZone, if_pos rfl], rfl⟩
  · intro ino₁ i₁ ino₂ i₂ p hp₁ hp₂
    rcases (ptr_takeZone hi h0 hstart).mp hp₁ with hq₁ | ⟨rfl, rfl, rfl⟩ <;>
      rcases (ptr_takeZone hi h0 hstart).mp hp₂ with hq₂ | ⟨rfl, rfl, h⟩
    · exact I.distinct _ _ _ _ _ hq₁ hq₂
    · exact absurd h (hfresh _ _ _ hq₁)
    · exact absurd rfl (hfresh _ _ _ hq₂)
    · exact ⟨rfl, rfl⟩

theorem Grows.takeZone (M : Mounted config sb) (hj2 : 2 ≤ j) (hbit : bit (s.zmap 0) j = false) :
    Grows config sb ino s (takeZone config sb s ino inode i j) := by
  have hstart : sb.zoneStart config j ≠ 0 := by
    have := M.zoneStart_ge hj2
    omega
  refine ⟨rfl, rfl, fun ino' hne => Function.update_of_ne hne .., ?_, ?_, ?_⟩
  · intro ino' inode' h
    by_cases hino : ino' = ino
    · subst hino
      obtain rfl : inode = inode' := Option.some.inj (hi.symm.trans h)
      exact ⟨_, Function.update_self .., Nat.le_refl _⟩
    · exact ⟨inode', (Function.update_of_ne hino ..).trans h, Nat.le_refl _⟩
  · exact fun _ _ _ hp => (ptr_takeZone hi h0 hstart).mpr (.inl hp)
  · intro k hk
    rw [bit_takeZone] at hk
    split at hk
    · next heq =>
      exact ⟨heq ▸ hbit, i, (ptr_takeZone hi h0 hstart).mpr (.inr ⟨rfl, rfl, heq ▸ rfl⟩)⟩
    · exact absurd rfl hk

end

theorem Inv.ptr_lt (M : Mounted config sb) (I : Inv config sb s) (hp : s.Ptr ino i p) :
    p + config.blocksPerZone < 2 ^ 31 := by
  obtain ⟨j, -, hj, -, rfl⟩ := I.owned _ _ _ hp
  exact M.zoneStart_lt hj

theorem block_eq_some_iff (M : Mounted config sb) (I : Inv config sb s) :
    s.block sb behind ino iblock = some b ↔
      ∃ (hidx : iblock / config.blocksPerZone < ZONE_PTR_IN_INODE_NUM) (p : Nat),
        s.Ptr ino ⟨_, hidx⟩ p ∧ b = iblock % config.blocksPerZone + p := by
  have hoff : iblock % config.blocksPerZone < config.blocksPerZone :=
    Nat.mod_lt _ M.accepted.blocksPerZone_pos
  unfold block
  rw [M.reads.zoneIdx_eq]
  cases hi : s.files ino with
  | none => simp [Ptr, hi]
  | some inode =>
    by_cases hidx : iblock / config.blocksPerZone < ZONE_PTR_IN_INODE_NUM
    · simp only [AufsInode.zonePtr, hidx, dite_true, Option.bind_eq_bind, Option.bind_some]
      by_cases hptr : inode.aiZonePtr ⟨_, hidx⟩ = 0
      · simp [hptr, Ptr, hi]
      · have hlt := I.ptr_lt M ⟨inode, hi, rfl, hptr⟩
        rw [M.reads.getBlock_mapped M.accepted hidx hptr, u64_of_lt (by omega)]
        simp [hptr, Except.toOption, Ptr, hi, eq_comm (a := b)]
    · simp [hidx]

/-- A change of the files that keeps every pointer. -/
theorem Inv.of_ptr (I : Inv config sb s) (hzmap : s'.zmap = s.zmap)
    (hptr : ∀ ino i p, s'.Ptr ino i p ↔ s.Ptr ino i p)
    (hnamed : ∀ ino inode, s'.files ino = some inode → bit (s'.imap 0) ino = true) :
    Inv config sb s' where
  clear := by
    rw [hzmap]
    exact I.clear
  named := hnamed
  owned ino i p hp := by
    rw [hzmap]
    exact I.owned ino i p ((hptr ..).mp hp)
  distinct ino₁ i₁ ino₂ i₂ p hp₁ hp₂ :=
    I.distinct ino₁ i₁ ino₂ i₂ p ((hptr ..).mp hp₁) ((hptr ..).mp hp₂)

theorem block_of_ptr (M : Mounted config sb) (I : Inv config sb s) (I' : Inv config sb s')
    (hptr : ∀ ino i p, s'.Ptr ino i p ↔ s.Ptr ino i p) :
    s'.block sb behind ino iblock = s.block sb behind ino iblock := by
  ext b
  rw [block_eq_some_iff M I', block_eq_some_iff M I]
  simp only [hptr]

theorem guard_bind_eq_some {p : Prop} [Decidable p] {x : Option α} :
    ((guard p : Option Unit).bind fun _ => x) = some a ↔ p ∧ x = some a := by
  by_cases h : p <;> simp [h]

/-- `getBlock` returns the mapped block and changes nothing, or takes a free zone. -/
theorem getBlock_cases (M : Mounted config sb) (I : Inv config sb s)
    (h : s.getBlock sb behind ino iblock create = some (ret, s')) :
    ∃ hidx : iblock / config.blocksPerZone < ZONE_PTR_IN_INODE_NUM,
      (s' = s ∧ ∃ p, s.Ptr ino ⟨_, hidx⟩ p ∧ ret = .ok (iblock % config.blocksPerZone + p)) ∨
      ∃ inode, s.files ino = some inode ∧ inode.aiZonePtr ⟨_, hidx⟩ = 0 ∧
        ∃ j, 2 ≤ j ∧ j < config.numZones ∧ bit (s.zmap 0) j = false ∧
          ret = .ok (iblock % config.blocksPerZone + sb.zoneStart config j) ∧
          s' = takeZone config sb s ino inode ⟨_, hidx⟩ j := by
  have hoff : iblock % config.blocksPerZone < config.blocksPerZone :=
    Nat.mod_lt _ M.accepted.blocksPerZone_pos
  unfold getBlock at h
  rw [M.reads.zoneIdx_eq] at h
  cases hi : s.files ino with
  | none => simp [hi] at h
  | some inode =>
    simp only [hi, Option.bind_eq_bind, Option.bind_some] at h
    obtain ⟨hidx, h⟩ := guard_bind_eq_some.mp h
    obtain ⟨hnz, h⟩ := guard_bind_eq_some.mp h
    refine ⟨hidx, ?_⟩
    by_cases hptr : inode.aiZonePtr ⟨_, hidx⟩ = 0
    · rw [M.reads.getBlock_unmapped M.accepted hidx hptr] at h hnz
      rcases M.newZone_cases s.zmap I.clear with ⟨-, heq⟩ | ⟨j, hj2, hjn, hbit, heq⟩
      · exact absurd rfl (heq ▸ hnz)
      · have hzone := M.zoneStart_lt hjn
        have hu : u64OfInt ((sb.zoneStart config j : Nat) : Int) = sb.zoneStart config j :=
          u64OfInt_natCast (by omega)
        simp only [heq, hu, Option.pure_def, Option.some.injEq, Prod.mk.injEq] at h
        obtain ⟨rfl, rfl⟩ := h
        refine .inr ⟨inode, rfl, hptr, j, hj2, hjn, hbit, ?_, rfl⟩
        rw [u64_of_lt (by omega)]
    · have hp : s.Ptr ino ⟨_, hidx⟩ _ := ⟨inode, hi, rfl, hptr⟩
      have hlt := I.ptr_lt M hp
      rw [M.reads.getBlock_mapped M.accepted hidx hptr] at h
      simp only [Option.pure_def, Option.some.injEq, Prod.mk.injEq] at h
      obtain ⟨rfl, rfl⟩ := h
      refine .inl ⟨?_, _, hp, ?_⟩
      · rw [← hi, Function.update_eq_self]
      · rw [u64_of_lt (by omega)]

/-- Either way the block is mapped afterwards, and no byte of the device changes. -/
theorem getBlock_spec (M : Mounted config sb) (I : Inv config sb s)
    (h : s.getBlock sb behind ino iblock create = some (ret, s')) :
    Inv config sb s' ∧ Grows config sb ino s s' ∧ s'.dev = s.dev ∧
      ∃ b, ret = .ok b ∧ s'.block sb behind ino iblock = some b := by
  obtain ⟨hidx, ⟨rfl, p, hp, rfl⟩ | ⟨inode, hi, h0, j, hj2, hjn, hbit, rfl, rfl⟩⟩ :=
    getBlock_cases M I h
  · exact ⟨I, .refl, rfl, _, rfl, (block_eq_some_iff M I).mpr ⟨hidx, p, hp, rfl⟩⟩
  · have hstart : sb.zoneStart config j ≠ 0 := by
      have := M.zoneStart_ge hj2
      omega
    have I' := I.takeZone hi h0 M hj2 hjn hbit
    refine ⟨I', .takeZone hi h0 M hj2 hbit, rfl, _, rfl, ?_⟩
    exact (block_eq_some_iff M I').mpr
      ⟨hidx, _, (ptr_takeZone hi h0 hstart).mpr (.inr ⟨rfl, rfl, rfl⟩), rfl⟩

/-- A mapped block stays where it is. -/
theorem getBlock_of_block (M : Mounted config sb) (I : Inv config sb s)
    (hb : s.block sb behind ino iblock = some b) (create : Bool) :
    s.getBlock sb behind ino iblock create = some (.ok b, s) := by
  obtain ⟨hidx, p, hp, rfl⟩ := (block_eq_some_iff M I).mp hb
  have hlt := I.ptr_lt M hp
  have hoff := Nat.mod_lt iblock M.accepted.blocksPerZone_pos
  obtain ⟨inode, hi, rfl, hptr⟩ := hp
  have hnone : (none : Option Int) ≠ some 0 := nofun
  unfold getBlock
  rw [M.reads.zoneIdx_eq, hi, Option.bind_eq_bind, Option.bind_some]
  refine guard_bind_eq_some.mpr ⟨hidx, ?_⟩
  rw [M.reads.getBlock_mapped M.accepted hidx hptr]
  refine guard_bind_eq_some.mpr ⟨hnone, ?_⟩
  rw [Option.pure_def, ← hi, Function.update_eq_self, u64_of_lt (by omega)]

/-- A block below the ninth zone is mapped if its zone is assigned or one is free. -/
theorem exists_getBlock (M : Mounted config sb) (I : Inv config sb s)
    (hi : s.files ino = some inode)
    (hidx : iblock / config.blocksPerZone < ZONE_PTR_IN_INODE_NUM)
    (hfree : inode.aiZonePtr ⟨_, hidx⟩ ≠ 0 ∨ ∃ j < 8 * sb.sBlocksize, bit (s.zmap 0) j = false)
    (behind : Nat → Nat) (create : Bool) :
    ∃ b s', s.getBlock sb behind ino iblock create = some (.ok b, s') := by
  suffices hsome : ∃ r, s.getBlock sb behind ino iblock create = some r by
    obtain ⟨⟨ret, s'⟩, h⟩ := hsome
    obtain ⟨-, -, -, b, rfl, -⟩ := getBlock_spec M I h
    exact ⟨b, s', h⟩
  unfold getBlock
  rw [M.reads.zoneIdx_eq, hi, Option.bind_eq_bind, Option.bind_some]
  by_cases h0 : inode.aiZonePtr ⟨_, hidx⟩ = 0
  · obtain ⟨j, hj, hbit⟩ := hfree.resolve_left (not_not_intro h0)
    refine ⟨_, guard_bind_eq_some.mpr ⟨hidx, guard_bind_eq_some.mpr ⟨?_, rfl⟩⟩⟩
    rw [M.reads.getBlock_unmapped M.accepted hidx h0]
    rcases M.newZone_cases s.zmap I.clear with ⟨hfull, -⟩ | ⟨k, hk2, -, -, heq⟩
    · cases (hfull j hj).symm.trans hbit
    · have hge := M.zoneStart_ge hk2
      rw [heq, Ne, Option.some.injEq]
      omega
  · refine ⟨_, guard_bind_eq_some.mpr ⟨hidx, guard_bind_eq_some.mpr ⟨?_, rfl⟩⟩⟩
    rw [M.reads.getBlock_mapped M.accepted hidx h0]
    exact nofun

/-- The first block that is mapped after mounting lies in zone 2. -/
theorem getBlock_first {image : Image} {env : MkfsEnv} (M : Mounted config sb)
    (hf : image.Formatted config env) {inode : AufsInode} (hi : s.files ino = some inode)
    (hzero : inode.aiZonePtr ⟨_, firstBlock_idx config⟩ = 0)
    (hz : s.zmap = fun _ => minixSetBit 0 image.zoneMap) (behind : Nat → Nat) (create : Bool) :
    s.getBlock sb behind ino 0 create = some (.ok (sb.zoneStart config 2),
      takeZone config sb s ino inode ⟨_, firstBlock_idx config⟩ 2) := by
  have hlt := M.zoneStart_lt (Nat.lt_trans (by decide) M.accepted.three_lt : 2 < config.numZones)
  have hge := M.zoneStart_ge (Nat.le_refl 2)
  have hstart : sb.sbi.zoneBlock 2 = (sb.zoneStart config 2 : Nat) :=
    M.reads.zoneBlock_of_lt M.accepted (by decide) (Nat.lt_of_le_of_lt (Nat.le_add_right ..) hlt)
  have hne : some ((sb.zoneStart config 2 : Nat) : Int) ≠ some 0 := by
    rw [Ne, Option.some.injEq]
    omega
  unfold getBlock
  rw [M.reads.zoneIdx_eq, hi, Option.bind_eq_bind, Option.bind_some]
  refine guard_bind_eq_some.mpr ⟨firstBlock_idx config, ?_⟩
  simp only [hz]
  rw [M.reads.getBlock_unmapped M.accepted (firstBlock_idx config) hzero,
    M.reads.newZone_mounted M.accepted hf, hstart]
  refine guard_bind_eq_some.mpr ⟨hne, ?_⟩
  rw [Option.pure_def, u64OfInt_natCast (by omega), u64_of_lt (by rw [Nat.zero_mod]; omega),
    Nat.zero_mod, Nat.zero_add, takeZone, hz]

/-! ## Addresses -/

/-- The byte of the device behind offset `k.2` of file `k.1`. -/
def addr (sb : Sb) (behind : Nat → Nat) (s : FileSys) (k : Nat × Nat) : Option Nat :=
  (s.block sb behind k.1 (k.2 / sb.sBlocksize)).map (· * sb.sBlocksize + k.2 % sb.sBlocksize)

theorem block_injective (M : Mounted config sb) (I : Inv config sb s)
    (h : s.block sb behind ino iblock = some b) (h' : s.block sb behind ino' iblock' = some b) :
    ino = ino' ∧ iblock = iblock' := by
  have hpos := M.accepted.blocksPerZone_pos
  obtain ⟨hidx, p, hp, rfl⟩ := (block_eq_some_iff M I).mp h
  obtain ⟨hidx', p', hp', heq⟩ := (block_eq_some_iff M I).mp h'
  obtain ⟨j, -, -, -, rfl⟩ := I.owned _ _ _ hp
  obtain ⟨j', -, -, -, rfl⟩ := I.owned _ _ _ hp'
  obtain ⟨rfl, hoff⟩ := Mounted.zoneStart_inj heq (Nat.mod_lt _ hpos) (Nat.mod_lt _ hpos)
  obtain ⟨rfl, hzone⟩ := I.distinct _ _ _ _ _ hp hp'
  have hzone : iblock / config.blocksPerZone = iblock' / config.blocksPerZone :=
    congrArg Fin.val hzone
  refine ⟨rfl, ?_⟩
  rw [← Nat.div_add_mod iblock config.blocksPerZone, hzone, hoff, Nat.div_add_mod]

theorem addr_injective (M : Mounted config sb) (I : Inv config sb s) :
    AddressMap.Injective (s.addr sb behind) := by
  rintro ⟨ino, o⟩ ⟨ino', o'⟩ a h h'
  have hpos := M.blocksize_pos
  obtain ⟨b, hb, rfl⟩ := Option.map_eq_some_iff.mp h
  obtain ⟨b', hb', heq⟩ := Option.map_eq_some_iff.mp h'
  have hlt := Nat.mod_lt o hpos
  have hlt' := Nat.mod_lt o' hpos
  obtain ⟨rfl, hoff⟩ : b' = b ∧ o' % sb.sBlocksize = o % sb.sBlocksize := by
    simp only [Nat.mul_comm _ sb.sBlocksize] at heq
    have hdiv := congrArg (· / sb.sBlocksize) heq
    have hmod := congrArg (· % sb.sBlocksize) heq
    simp only [Nat.mul_add_div hpos, Nat.div_eq_of_lt hlt, Nat.div_eq_of_lt hlt'] at hdiv
    simp only [Nat.mul_add_mod, Nat.mod_mod] at hmod
    exact ⟨by omega, hmod⟩
  obtain ⟨rfl, hdiv⟩ := block_injective M I hb hb'
  simp only at hdiv
  rw [Prod.mk.injEq]
  refine ⟨rfl, ?_⟩
  rw [← Nat.div_add_mod o sb.sBlocksize, hdiv, ← hoff, Nat.div_add_mod]

theorem Grows.block (M : Mounted config sb) (I : Inv config sb s) (I' : Inv config sb s')
    (g : Grows config sb ino s s') (h : s.block sb behind ino' iblock = some b) :
    s'.block sb behind ino' iblock = some b := by
  obtain ⟨hidx, p, hp, hb⟩ := (block_eq_some_iff M I).mp h
  exact (block_eq_some_iff M I').mpr ⟨hidx, p, g.ptr _ _ _ hp, hb⟩

theorem Grows.addr (M : Mounted config sb) (I : Inv config sb s) (I' : Inv config sb s')
    (g : Grows config sb ino s s') :
    AddressMap.Extends (s.addr sb behind) (s'.addr sb behind) := by
  intro k a h
  obtain ⟨b, hb, rfl⟩ := Option.map_eq_some_iff.mp h
  exact Option.map_eq_some_iff.mpr ⟨b, g.block M I I' hb, rfl⟩

/-! ## The byte arrays -/

/-- The arrays after `bytes` have been stored at `pos` of file `ino`; `none` stands where nothing
was written yet. -/
def store (spec : Nat × Nat → Option Byte) (ino pos : Nat) (bytes : List Byte) :
    Nat × Nat → Option Byte := fun k =>
  if k.1 = ino ∧ pos ≤ k.2 ∧ k.2 < pos + bytes.length then bytes[k.2 - pos]? else spec k

@[simp] theorem store_nil : store spec ino pos [] = spec := by
  funext k
  rw [store, if_neg (by simp only [List.length_nil]; omega)]

theorem store_append : store (store spec ino pos xs) ino (pos + xs.length) ys =
    store spec ino pos (xs ++ ys) := by
  funext k
  simp only [store, List.length_append]
  by_cases hino : k.1 = ino
  · by_cases hys : pos + xs.length ≤ k.2 ∧ k.2 < pos + xs.length + ys.length
    · rw [if_pos ⟨hino, hys⟩, if_pos ⟨hino, by omega⟩, List.getElem?_append_right (by omega)]
      congr 1
      omega
    · rw [if_neg (fun h => hys h.2)]
      by_cases hxs : pos ≤ k.2 ∧ k.2 < pos + xs.length
      · rw [if_pos ⟨hino, hxs⟩, if_pos ⟨hino, by omega⟩, List.getElem?_append_left (by omega)]
      · rw [if_neg (fun h => hxs h.2), if_neg (by omega)]
  · simp [hino]

/-- The file system holds the arrays `spec`: each byte written is on the device, below the size of
its file. -/
structure Holds (sb : Sb) (behind : Nat → Nat) (spec : Nat × Nat → Option Byte) (s : FileSys) :
    Prop where
  bytes : AddressMap.Represents (s.addr sb behind) s.dev.bytes spec
  sized : ∀ k v, spec k = some v → ∃ inode, s.files k.1 = some inode ∧ k.2 < inode.iSize
  onDevice : ∀ k v b, spec k = some v → s.block sb behind k.1 (k.2 / sb.sBlocksize) = some b →
    s.dev.HasBlock sb.sBlocksize b

theorem Holds.grows (M : Mounted config sb) (I : Inv config sb s) (I' : Inv config sb s')
    (h : s.Holds sb behind spec) (g : Grows config sb ino s s') (hdev : s'.dev = s.dev) :
    s'.Holds sb behind spec := by
  refine ⟨?_, ?_, ?_⟩
  · rw [hdev]
    exact h.bytes.extend (g.addr M I I')
  · intro k v hk
    obtain ⟨inode, hi, hlt⟩ := h.sized k v hk
    obtain ⟨inode', hi', hle⟩ := g.sized _ inode hi
    exact ⟨inode', hi', by omega⟩
  · intro k v b hk hb
    -- the byte was mapped before, to the same block
    obtain ⟨a, ha, -⟩ := h.bytes hk
    obtain ⟨b', hb', -⟩ := Option.map_eq_some_iff.mp ha
    obtain rfl : b' = b := Option.some.inj ((g.block M I I' hb').symm.trans hb)
    rw [hdev]
    exact h.onDevice k v b' hk hb'

/-! ## Writing -/

/-- The state after `chunk` has gone to byte `a` of the device, as bytes `pos ..` of file `ino`. -/
def putChunk (s : FileSys) (ino pos a : Nat) (chunk : List Byte) : FileSys :=
  { s with
    dev := s.dev.write a chunk
    files := Function.update s.files ino
      ((s.files ino).map (genericWriteEnd · pos chunk.length)) }

theorem genericWriteEnd_aiZonePtr (inode : AufsInode) :
    (genericWriteEnd inode pos n).aiZonePtr = inode.aiZonePtr := by
  unfold genericWriteEnd
  split <;> rfl

theorem genericWriteEnd_iSize (inode : AufsInode) :
    (genericWriteEnd inode pos n).iSize = max inode.iSize (pos + n) := by
  unfold genericWriteEnd
  split
  · exact (Nat.max_eq_right (Nat.le_of_lt (by assumption))).symm
  · exact (Nat.max_eq_left (by omega)).symm

theorem putChunk_files : (s.putChunk ino pos a chunk).files ino' = some inode' ↔
    ∃ inode, s.files ino' = some inode ∧
      inode' = if ino' = ino then genericWriteEnd inode pos chunk.length else inode := by
  simp only [putChunk, Function.update_apply]
  by_cases h : ino' = ino
  · simp [h, eq_comm]
  · simp [h, eq_comm]

@[simp] theorem ptr_putChunk : (s.putChunk ino pos a chunk).Ptr ino' i p ↔ s.Ptr ino' i p := by
  simp only [Ptr, putChunk_files]
  constructor
  · rintro ⟨inode', ⟨inode, hi, rfl⟩, hp, h0⟩
    refine ⟨inode, hi, ?_, h0⟩
    rw [← hp]
    split
    · rw [genericWriteEnd_aiZonePtr]
    · rfl
  · rintro ⟨inode, hi, hp, h0⟩
    refine ⟨_, ⟨inode, hi, rfl⟩, ?_, h0⟩
    split
    · rw [genericWriteEnd_aiZonePtr, hp]
    · exact hp

theorem Inv.putChunk (I : Inv config sb s) : Inv config sb (s.putChunk ino pos a chunk) := by
  refine I.of_ptr rfl (fun _ _ _ => ptr_putChunk) fun ino' inode' h => ?_
  obtain ⟨inode, hi, -⟩ := putChunk_files.mp h
  exact I.named ino' inode hi

theorem Grows.putChunk : Grows config sb ino s (s.putChunk ino pos a chunk) where
  imap := rfl
  size := rfl
  others ino' hne := Function.update_of_ne hne ..
  sized ino' inode hi := by
    refine ⟨_, putChunk_files.mpr ⟨inode, hi, rfl⟩, ?_⟩
    split
    · rw [genericWriteEnd_iSize]
      exact Nat.le_max_left ..
    · exact Nat.le_refl _
  ptr ino' i p hp := ptr_putChunk.mpr hp
  zmap j hj := absurd rfl hj

theorem block_putChunk (M : Mounted config sb) (I : Inv config sb s) :
    (s.putChunk ino pos a chunk).block sb behind ino' iblock = s.block sb behind ino' iblock :=
  block_of_ptr M I I.putChunk fun _ _ _ => ptr_putChunk

theorem addr_putChunk (M : Mounted config sb) (I : Inv config sb s) :
    (s.putChunk ino pos a chunk).addr sb behind = s.addr sb behind := by
  funext k
  rw [addr, block_putChunk M I, addr]

/-- The offsets of a chunk that stays in one block. -/
theorem chunk_offset {bs : Nat} (hin : pos % bs + n ≤ bs) (h₁ : pos ≤ o) (h₂ : o < pos + n) :
    o / bs = pos / bs ∧ o % bs = pos % bs + (o - pos) := by
  have hpos : 0 < bs := by omega
  have hlt : pos % bs + (o - pos) < bs := by omega
  have hsum : o = bs * (pos / bs) + (pos % bs + (o - pos)) := by
    have := Nat.div_add_mod pos bs
    omega
  constructor
  · rw [hsum, Nat.mul_add_div hpos, Nat.div_eq_of_lt hlt, Nat.add_zero]
  · conv_lhs => rw [hsum, Nat.mul_add_mod, Nat.mod_eq_of_lt hlt]

/-- They lie side by side on the device. -/
theorem addr_chunk (hb : s.block sb behind ino (pos / sb.sBlocksize) = some b)
    (hin : pos % sb.sBlocksize + n ≤ sb.sBlocksize) (h₁ : pos ≤ o) (h₂ : o < pos + n) :
    s.addr sb behind (ino, o) =
      some (b * sb.sBlocksize + pos % sb.sBlocksize + (o - pos)) := by
  obtain ⟨hdiv, hmod⟩ := chunk_offset hin h₁ h₂
  simp only [addr, hdiv, hb, hmod, Option.map_some, Nat.add_assoc]

/-- An offset of its block that the chunk leaves out. -/
theorem outside_chunk {bs : Nat} (hdiv : o / bs = pos / bs)
    (hout : ¬(pos ≤ o ∧ o < pos + n)) :
    ¬(pos % bs ≤ o % bs ∧ o % bs < pos % bs + n) := by
  intro h
  have hsum := Nat.div_add_mod o bs
  have hsum' := Nat.div_add_mod pos bs
  rw [hdiv] at hsum
  exact hout ⟨by omega, by omega⟩

/-- What a write of `bytes` at `pos` of file `ino` leaves behind: the bytes stored at their
addresses, and nothing else changed on the device. -/
structure Wrote (config : Configuration) (sb : Sb) (behind : Nat → Nat)
    (spec : Nat × Nat → Option Byte) (ino pos : Nat) (bytes : List Byte) (s s' : FileSys) :
    Prop where
  inv : Inv config sb s'
  grows : Grows config sb ino s s'
  holds : s'.Holds sb behind (store spec ino pos bytes)
  lands : ∀ o, pos ≤ o → o < pos + bytes.length →
    ∃ b, s'.block sb behind ino (o / sb.sBlocksize) = some b
  frame : ∀ a, s'.dev.bytes a ≠ s.dev.bytes a →
    ∃ o, pos ≤ o ∧ o < pos + bytes.length ∧ s'.addr sb behind (ino, o) = some a

theorem Wrote.nothing (M : Mounted config sb) (I : Inv config sb s) (I' : Inv config sb s')
    (h : s.Holds sb behind spec) (g : Grows config sb ino s s') (hdev : s'.dev = s.dev) :
    Wrote config sb behind spec ino pos [] s s' where
  inv := I'
  grows := g
  holds := by
    rw [store_nil]
    exact h.grows M I I' g hdev
  lands o h₁ h₂ := absurd h₂ (by simp only [List.length_nil]; omega)
  frame a ha := absurd (by rw [hdev]) ha

/-- A chunk in one mapped block. -/
theorem Wrote.putChunk (M : Mounted config sb) (I : Inv config sb s)
    (h : s.Holds sb behind spec) (hb : s.block sb behind ino (pos / sb.sBlocksize) = some b)
    (hin : pos % sb.sBlocksize + chunk.length ≤ sb.sBlocksize)
    (hon : s.dev.HasBlock sb.sBlocksize b) :
    Wrote config sb behind spec ino pos chunk s
      (s.putChunk ino pos (b * sb.sBlocksize + pos % sb.sBlocksize) chunk) := by
  have haddr := fun o (h₁ : pos ≤ o) (h₂ : o < pos + chunk.length) => addr_chunk hb hin h₁ h₂
  have hframe : ∀ a, poke s.dev.bytes (b * sb.sBlocksize + pos % sb.sBlocksize) chunk a ≠
      s.dev.bytes a → ∃ o, pos ≤ o ∧ o < pos + chunk.length ∧
        s.addr sb behind (ino, o) = some a := by
    intro a ha
    by_contra hno
    refine ha (poke_outside ?_)
    by_contra hin'
    refine hno ⟨pos + (a - (b * sb.sBlocksize + pos % sb.sBlocksize)), by omega, by omega, ?_⟩
    rw [haddr _ (by omega) (by omega)]
    congr 1
    omega
  have g : Grows config sb ino s
      (s.putChunk ino pos (b * sb.sBlocksize + pos % sb.sBlocksize) chunk) := .putChunk
  refine ⟨I.putChunk, g, ⟨?_, ?_, ?_⟩, ?_, ?_⟩
  · rw [addr_putChunk M I]
    refine h.bytes.store (addr_injective M I)
      (fun k => k.1 = ino ∧ pos ≤ k.2 ∧ k.2 < pos + chunk.length) ?_ ?_ ?_
    · rintro ⟨_, o⟩ v ⟨rfl, h₁, h₂⟩ hv
      refine ⟨_, haddr o h₁ h₂, ?_⟩
      rw [store, if_pos ⟨rfl, h₁, h₂⟩] at hv
      change poke _ _ _ _ = v
      rw [poke_inside (by omega)]
      simpa [List.getElem?_eq_getElem (show o - pos < chunk.length by omega)] using hv
    · intro k hk
      rw [store, if_neg hk]
    · intro a ha
      obtain ⟨o, h₁, h₂, ho⟩ := hframe a ha
      exact ⟨(ino, o), ⟨rfl, h₁, h₂⟩, ho⟩
  · intro k v hk
    rw [store] at hk
    split at hk
    · next hw =>
      obtain ⟨-, -, ⟨inode, hi, -⟩, -⟩ := (block_eq_some_iff M I).mp hb
      refine ⟨_, putChunk_files.mpr ⟨inode, hw.1 ▸ hi, rfl⟩, ?_⟩
      rw [if_pos hw.1, genericWriteEnd_iSize]
      omega
    · obtain ⟨inode, hi, hlt⟩ := h.sized k v hk
      obtain ⟨inode', hi', hle⟩ := g.sized _ inode hi
      exact ⟨inode', hi', by omega⟩
  · intro k v b' hk hb'
    rw [block_putChunk M I] at hb'
    rw [store] at hk
    split at hk
    · next hw =>
      rw [hw.1, (chunk_offset hin hw.2.1 hw.2.2).1, hb] at hb'
      exact Option.some.inj hb' ▸ hon
    · exact h.onDevice k v b' hk hb'
  · intro o h₁ h₂
    rw [block_putChunk M I, (chunk_offset hin h₁ h₂).1]
    exact ⟨b, hb⟩
  · rw [addr_putChunk M I]
    exact hframe

theorem Wrote.append (M : Mounted config sb)
    (w : Wrote config sb behind spec ino pos xs s s')
    (w' : Wrote config sb behind (store spec ino pos xs) ino (pos + xs.length) ys s' s'') :
    Wrote config sb behind spec ino pos (xs ++ ys) s s'' where
  inv := w'.inv
  grows := w.grows.trans w'.grows
  holds := by
    rw [← store_append]
    exact w'.holds
  lands o h₁ h₂ := by
    by_cases hlt : o < pos + xs.length
    · obtain ⟨b, hb⟩ := w.lands o h₁ hlt
      exact ⟨b, w'.grows.block M w.inv w'.inv hb⟩
    · rw [List.length_append] at h₂
      exact w'.lands o (by omega) (by omega)
  frame a ha := by
    rw [List.length_append]
    by_cases heq : s'.dev.bytes a = s.dev.bytes a
    · rw [← heq] at ha
      obtain ⟨o, h₁, h₂, ho⟩ := w'.frame a ha
      exact ⟨o, by omega, by omega, ho⟩
    · obtain ⟨o, h₁, h₂, ho⟩ := w.frame a heq
      exact ⟨o, h₁, by omega, w'.grows.addr M w.inv w'.inv ho⟩

theorem writeChunk_spec (M : Mounted config sb) (I : Inv config sb s)
    (h : s.Holds sb behind spec) (hin : pos % sb.sBlocksize + chunk.length ≤ sb.sBlocksize)
    (hw : s.writeChunk sb behind ino pos chunk = some (ok, s')) :
    Wrote config sb behind spec ino pos (if ok then chunk else []) s s' := by
  obtain ⟨⟨ret, s₁⟩, hget, hw⟩ := Option.bind_eq_some_iff.mp hw
  obtain ⟨I₁, g, hdev, b, rfl, hb⟩ := getBlock_spec M I hget
  simp only at hw
  have w₁ : Wrote config sb behind spec ino pos [] s s₁ := .nothing M I I₁ h g hdev
  split at hw
  · next hon =>
    simp only [Option.pure_def, Option.some.injEq, Prod.mk.injEq] at hw
    obtain ⟨rfl, rfl⟩ := hw
    exact w₁.append M (.putChunk M I₁ w₁.holds hb hin hon)
  · simp only [Option.pure_def, Option.some.injEq, Prod.mk.injEq] at hw
    obtain ⟨rfl, rfl⟩ := hw
    exact w₁

theorem writeLoop_spec (M : Mounted config sb) (hlen : bytes.length ≤ fuel) (I : Inv config sb s)
    (h : s.Holds sb behind spec)
    (hw : writeLoop sb behind ino fuel s pos bytes = some (n, s')) :
    n ≤ bytes.length ∧ Wrote config sb behind spec ino pos (bytes.take n) s s' := by
  induction fuel generalizing s spec pos bytes n with
  | zero =>
    simp only [writeLoop, Option.some.injEq, Prod.mk.injEq] at hw
    obtain ⟨rfl, rfl⟩ := hw
    exact ⟨Nat.zero_le _, .nothing M I I h .refl rfl⟩
  | succ fuel ih =>
    rw [writeLoop] at hw
    split at hw
    · simp only [Option.some.injEq, Prod.mk.injEq] at hw
      obtain ⟨rfl, rfl⟩ := hw
      exact ⟨Nat.zero_le _, .nothing M I I h .refl rfl⟩
    · next hne =>
      have hmod := Nat.mod_lt pos M.blocksize_pos
      have hnil := List.length_pos_of_ne_nil hne
      generalize hm : sb.sBlocksize - pos % sb.sBlocksize = m at hw
      obtain ⟨⟨ok, s₁⟩, hchunk, hw⟩ := Option.bind_eq_some_iff.mp hw
      have hin : pos % sb.sBlocksize + (bytes.take m).length ≤ sb.sBlocksize := by
        rw [List.length_take]
        omega
      have w₁ := writeChunk_spec M I h hin hchunk
      cases ok with
      | false =>
        simp only [Bool.false_eq_true, if_false, Option.pure_def, Option.some.injEq,
          Prod.mk.injEq] at hw
        obtain ⟨rfl, rfl⟩ := hw
        exact ⟨Nat.zero_le _, w₁⟩
      | true =>
        obtain ⟨⟨written, s₂⟩, hrest, hw⟩ := Option.bind_eq_some_iff.mp hw
        simp only [Option.pure_def, Option.some.injEq, Prod.mk.injEq] at hw
        obtain ⟨rfl, rfl⟩ := hw
        have hdrop : (bytes.drop m).length ≤ fuel := by
          rw [List.length_drop]
          omega
        obtain ⟨hle, w₂⟩ := ih hdrop w₁.inv w₁.holds hrest
        have htake : bytes.take ((bytes.take m).length + written) =
            bytes.take m ++ (bytes.drop m).take written := by
          conv_lhs =>
            arg 2
            rw [← List.take_append_drop m bytes]
          exact List.take_length_add_append _
        refine ⟨?_, ?_⟩
        · rw [List.length_drop] at hle
          rw [List.length_take]
          omega
        · rw [htake]
          exact w₁.append M w₂

/-! ## Reading -/

/-- What a read of `len` bytes at `pos` of file `ino` gives: the bytes written there, as many as
asked for unless it meets a byte that was never written. -/
structure Got (config : Configuration) (sb : Sb) (spec : Nat × Nat → Option Byte)
    (ino pos len : Nat) (bytes : List Byte) (s s' : FileSys) : Prop where
  inv : Inv config sb s'
  grows : Grows config sb ino s s'
  dev : s'.dev = s.dev
  get : ∀ k v, k < bytes.length → spec (ino, pos + k) = some v → bytes[k]? = some v
  full : (∀ k < len, spec (ino, pos + k) ≠ none) → bytes.length = len

theorem readChunk_spec (M : Mounted config sb) (I : Inv config sb s)
    (h : s.Holds sb behind spec) (hin : pos % sb.sBlocksize + n ≤ sb.sBlocksize) (hn : 0 < n)
    (hr : s.readChunk sb behind ino pos n = some (got, s')) :
    Got config sb spec ino pos n (got.getD []) s s' ∧
      ∀ bytes, got = some bytes → bytes.length = n := by
  obtain ⟨⟨ret, s₁⟩, hget, hr⟩ := Option.bind_eq_some_iff.mp hr
  obtain ⟨I₁, g, hdev, b, rfl, hb⟩ := getBlock_spec M I hget
  have h₁ := h.grows M I I₁ g hdev
  simp only at hr
  split at hr
  · simp only [Option.pure_def, Option.some.injEq, Prod.mk.injEq] at hr
    obtain ⟨rfl, rfl⟩ := hr
    refine ⟨⟨I₁, g, hdev, ?_, fun _ => peek_length⟩, ?_⟩
    · intro k v hk hv
      rw [Option.getD_some, peek_length] at hk
      obtain ⟨a, ha, hav⟩ := h₁.bytes hv
      rw [addr_chunk hb hin (Nat.le_add_right pos k) (by omega)] at ha
      rw [Option.getD_some, peek_getElem? hk, ← hav, ← Option.some.inj ha,
        Nat.add_sub_cancel_left]
    · rintro _ ⟨⟩
      exact peek_length
  · next hoff =>
    simp only [Option.pure_def, Option.some.injEq, Prod.mk.injEq] at hr
    obtain ⟨rfl, rfl⟩ := hr
    refine ⟨⟨I₁, g, hdev, ?_, ?_⟩, ?_⟩
    · intro k v hk
      exact absurd hk (Nat.not_lt_zero k)
    · intro hall
      -- a written byte would put the block on the device
      obtain ⟨v, hv⟩ := Option.ne_none_iff_exists'.mp (hall 0 hn)
      exact absurd (h₁.onDevice _ v b hv hb) hoff
    · rintro _ ⟨⟩

theorem readLoop_spec (M : Mounted config sb) (hlen : len ≤ fuel) (I : Inv config sb s)
    (h : s.Holds sb behind spec)
    (hr : readLoop sb behind ino fuel s pos len = some (bytes, s')) :
    Got config sb spec ino pos len bytes s s' := by
  induction fuel generalizing s pos len bytes with
  | zero =>
    simp only [readLoop, Option.some.injEq, Prod.mk.injEq] at hr
    obtain ⟨rfl, rfl⟩ := hr
    refine ⟨I, .refl, rfl, fun k v hk => absurd hk (Nat.not_lt_zero k), fun _ => ?_⟩
    exact (Nat.le_zero.mp hlen).symm
  | succ fuel ih =>
    rw [readLoop] at hr
    split at hr
    · next hzero =>
      simp only [Option.some.injEq, Prod.mk.injEq] at hr
      obtain ⟨rfl, rfl⟩ := hr
      exact ⟨I, .refl, rfl, fun k v hk => absurd hk (Nat.not_lt_zero k), fun _ => hzero.symm⟩
    · next hne =>
      have hmod := Nat.mod_lt pos M.blocksize_pos
      generalize hn : min len (sb.sBlocksize - pos % sb.sBlocksize) = n at hr
      obtain ⟨⟨got, s₁⟩, hchunk, hr⟩ := Option.bind_eq_some_iff.mp hr
      obtain ⟨g₁, hgot⟩ := readChunk_spec M I h (by omega) (by omega) hchunk
      cases got with
      | none =>
        simp only [Option.pure_def, Option.some.injEq, Prod.mk.injEq] at hr
        obtain ⟨rfl, rfl⟩ := hr
        refine ⟨g₁.inv, g₁.grows, g₁.dev, fun k v hk => absurd hk (Nat.not_lt_zero k), ?_⟩
        intro hall
        have := g₁.full fun k hk => hall k (by omega)
        rw [Option.getD_none, List.length_nil] at this
        omega
      | some chunk =>
        obtain ⟨⟨rest, s₂⟩, hrest, hr⟩ := Option.bind_eq_some_iff.mp hr
        simp only [Option.pure_def, Option.some.injEq, Prod.mk.injEq] at hr
        obtain ⟨rfl, rfl⟩ := hr
        have hlenc : chunk.length = n := hgot chunk rfl
        have g₂ := ih (by omega) g₁.inv (h.grows M I g₁.inv g₁.grows g₁.dev) hrest
        refine ⟨g₂.inv, g₁.grows.trans g₂.grows, g₂.dev.trans g₁.dev, ?_, ?_⟩
        · intro k v hk hv
          by_cases hlt : k < n
          · rw [List.getElem?_append_left (by omega)]
            exact g₁.get k v (by rw [Option.getD_some]; omega) hv
          · rw [List.length_append] at hk
            rw [List.getElem?_append_right (by omega), hlenc]
            refine g₂.get (k - n) v (by omega) ?_
            rw [← hv]
            congr 2
            omega
        · intro hall
          have htail := g₂.full fun k hk => by
            have := hall (n + k) (by omega)
            rwa [← Nat.add_assoc] at this
          rw [List.length_append, hlenc, htail]
          omega

/-! ## Which calls have a result -/

/-- File `ino` needs no more zones than are free. -/
def HasRoom (sb : Sb) (s : FileSys) (ino : Nat) : Prop :=
  ∃ inode, s.files ino = some inode ∧
    (Finset.univ.filter fun i => inode.aiZonePtr i = 0).card ≤
      ((Finset.range (8 * sb.sBlocksize)).filter fun j => bit (s.zmap 0) j = false).card

/-- A zone that is taken is one less to be had, and one less that is needed. -/
theorem hasRoom_takeZone {i : Fin ZONE_PTR_IN_INODE_NUM}
    (hle : (Finset.univ.filter fun i => inode.aiZonePtr i = 0).card ≤
      ((Finset.range (8 * sb.sBlocksize)).filter fun j => bit (s.zmap 0) j = false).card)
    (h0 : inode.aiZonePtr i = 0) (hj : j < 8 * sb.sBlocksize) (hbit : bit (s.zmap 0) j = false)
    (hstart : sb.zoneStart config j ≠ 0) : (takeZone config sb s ino inode i j).HasRoom sb ino := by
  refine ⟨_, takeZone_files_self, ?_⟩
  have hptrs : (Finset.univ.filter fun k =>
      (inode.setZonePtr i (sb.zoneStart config j)).aiZonePtr k = 0) =
        (Finset.univ.filter fun k => inode.aiZonePtr k = 0).erase i := by
    ext k
    by_cases hk : k = i
    · subst hk
      simp [AufsInode.setZonePtr_self, hstart]
    · simp [AufsInode.setZonePtr_of_ne _ _ _ hk, hk]
  have hbits : ((Finset.range (8 * sb.sBlocksize)).filter fun k =>
      bit ((takeZone config sb s ino inode i j).zmap 0) k = false) =
        ((Finset.range (8 * sb.sBlocksize)).filter fun k => bit (s.zmap 0) k = false).erase j := by
    ext k
    rw [Finset.mem_filter, bit_takeZone]
    by_cases hk : k = j
    · simp [hk]
    · simp [hk]
  rw [hptrs, hbits, Finset.card_erase_of_mem (by simp [h0]),
    Finset.card_erase_of_mem (by simp [hj, hbit])]
  exact Nat.sub_le_sub_right hle 1

/-- With a zone for each pointer that is unused, any block below the ninth zone can be had. -/
theorem HasRoom.getBlock (M : Mounted config sb) (I : Inv config sb s) (room : s.HasRoom sb ino)
    (hpos : pos < ZONE_PTR_IN_INODE_NUM * config.zoneSize) (behind : Nat → Nat) (create : Bool) :
    ∃ b s', s.getBlock sb behind ino (pos / sb.sBlocksize) create = some (.ok b, s') ∧
      s'.HasRoom sb ino := by
  obtain ⟨inode, hi, hle⟩ := room
  have hidx := M.reads.zoneIdx_lt M.accepted hpos
  have hfree : inode.aiZonePtr ⟨_, hidx⟩ ≠ 0 ∨
      ∃ j < 8 * sb.sBlocksize, bit (s.zmap 0) j = false := by
    by_cases h0 : inode.aiZonePtr ⟨_, hidx⟩ = 0
    · have hmem : (⟨_, hidx⟩ : Fin ZONE_PTR_IN_INODE_NUM) ∈
          Finset.univ.filter fun i => inode.aiZonePtr i = 0 := by simp [h0]
      obtain ⟨j, hj⟩ := Finset.card_pos.mp (Nat.lt_of_lt_of_le (Finset.card_pos.mpr ⟨_, hmem⟩) hle)
      obtain ⟨hlt, hbit⟩ := Finset.mem_filter.mp hj
      exact .inr ⟨j, Finset.mem_range.mp hlt, hbit⟩
    · exact .inl h0
  obtain ⟨b, s', h⟩ := exists_getBlock M I hi hidx hfree behind create
  refine ⟨b, s', h, ?_⟩
  obtain ⟨_, ⟨rfl, -⟩ | ⟨inode', hi', h0, j, hj2, hjn, hbit, -, rfl⟩⟩ := getBlock_cases M I h
  · exact ⟨inode, hi, hle⟩
  · cases hi.symm.trans hi'
    have hn := M.accepted.numZones_le
    have hbs := M.reads.blocksize
    have hge := M.zoneStart_ge hj2
    exact hasRoom_takeZone hle h0 (by omega) hbit (by omega)

theorem HasRoom.putChunk (room : s.HasRoom sb ino) :
    (s.putChunk ino pos a chunk).HasRoom sb ino := by
  obtain ⟨inode, hi, hle⟩ := room
  refine ⟨genericWriteEnd inode pos chunk.length, ?_, ?_⟩
  · exact putChunk_files.mpr ⟨inode, hi, (if_pos rfl).symm⟩
  · rwa [genericWriteEnd_aiZonePtr]

/-- One operation of a run. -/
def Step (sb : Sb) (behind : Nat → Nat) (s : FileSys) (op : FileOp) (out : FileOut)
    (s' : FileSys) : Prop :=
  s.exec sb behind op = some (out, s')

/-- The file system right after mounting `image`. -/
def mount (image : Image) (config : Configuration) (dev : Device) : FileSys where
  zmap := fun _ => minixSetBit 0 image.zoneMap
  imap := fun _ => minixSetBit 0 image.inodeMap
  files := fun _ => none
  dev := image.device config dev

/-- The byte arrays after one more operation. -/
def record (spec : Nat × Nat → Option Byte) : FileOp × FileOut → Nat × Nat → Option Byte
  | (.write ino pos bytes, .written n) => store spec ino pos (bytes.take n)
  | _ => spec

/-- What a history has written last at each offset of each file. -/
def lastWritten (h : List (FileOp × FileOut)) : Nat × Nat → Option Byte :=
  h.foldl record fun _ => none

theorem Inv.mount {image : Image} {env : MkfsEnv} {dev : Device} (M : Mounted config sb)
    (hf : image.Formatted config env) : Inv config sb (mount image config dev) where
  clear j hj hbit := by
    simp only [FileSys.mount, minixSetBit, bit_setBit] at hbit
    split at hbit
    · cases hbit
    · exact (hf.zoneMap j (by rw [← M.reads.blocksize]; omega)).mp hbit
  named _ _ h := nomatch h
  owned _ _ _ hp := by
    obtain ⟨_, h, -⟩ := hp
    cases h
  distinct _ _ _ _ _ hp := by
    obtain ⟨_, h, -⟩ := hp
    cases h

/-- The file system with a new inode `inode`. -/
def addInode (s : FileSys) (imap : MapBlocks) (inode : AufsInode) : FileSys :=
  { s with imap, files := Function.update s.files inode.iIno (some inode) }

section
variable {imap : MapBlocks} {inode : AufsInode} (hnew : s.files inode.iIno = none)
  (hzero : ∀ i, inode.aiZonePtr i = 0)
include hnew hzero

theorem ptr_addInode : (s.addInode imap inode).Ptr ino i p ↔ s.Ptr ino i p := by
  simp only [Ptr, addInode, Function.update_apply]
  by_cases h : ino = inode.iIno
  · simp only [h, if_true, hnew, Option.some.injEq, exists_eq_left', hzero]
    constructor
    · rintro ⟨rfl, h⟩
      exact absurd rfl h
    · rintro ⟨_, h, -⟩
      cases h
  · simp [h]

theorem Inv.addInode (I : Inv config sb s)
    (hmap : ∀ k, bit (s.imap 0) k = true → bit (imap 0) k = true)
    (hbit : bit (imap 0) inode.iIno = true) : Inv config sb (s.addInode imap inode) := by
  refine I.of_ptr rfl (fun _ _ _ => ptr_addInode hnew hzero) fun ino' inode' h => ?_
  change (Function.update s.files _ _) ino' = _ at h
  rcases PartialMap.update_eq_some h with ⟨rfl, -⟩ | ⟨-, h⟩
  · exact hbit
  · exact hmap _ (I.named _ _ h)

theorem block_addInode (M : Mounted config sb) (I : Inv config sb s)
    (I' : Inv config sb (s.addInode imap inode)) :
    (s.addInode imap inode).block sb behind ino iblock = s.block sb behind ino iblock :=
  block_of_ptr M I I' fun _ _ _ => ptr_addInode hnew hzero

end

/-- Everything an operation can do to the files of a good state. -/
structure Stepped (config : Configuration) (sb : Sb) (behind : Nat → Nat)
    (spec : Nat × Nat → Option Byte) (s s' : FileSys) : Prop where
  inv : Inv config sb s'
  holds : s'.Holds sb behind spec
  block : ∀ ino iblock b, s.block sb behind ino iblock = some b →
    s'.block sb behind ino iblock = some b

/-- A new inode changes neither the device nor the blocks and inodes of the other files. -/
theorem exec_newInode (M : Mounted config sb) (I : Inv config sb s)
    (hs : s.exec sb behind (.newInode task leftover dir mode) = some (out, s')) :
    Inv config sb s' ∧ s'.dev = s.dev ∧
      (∀ ino iblock, s'.block sb behind ino iblock = s.block sb behind ino iblock) ∧
      ∀ ino inode, s.files ino = some inode → s'.files ino = some inode := by
  simp only [exec] at hs
  rcases aufsNewInode_cases M.reads.inodeMapBlocks task s.imap (Aufs.newInode leftover) dir mode
    with ⟨-, heq⟩ | ⟨j, -, hbit, -, heq⟩
  · simp only [heq, Option.some.injEq, Prod.mk.injEq] at hs
    obtain ⟨-, rfl⟩ := hs
    exact ⟨I, rfl, fun _ _ => rfl, fun _ _ hi => hi⟩
  · have hset : ∀ k, bit (Function.update s.imap 0 (minixSetBit j (s.imap 0)) 0) k =
        if k = j then true else bit (s.imap 0) k := by
      intro k
      rw [Function.update_self, minixSetBit, bit_setBit]
    have hmap : ∀ k, bit (s.imap 0) k = true →
        bit (Function.update s.imap 0 (minixSetBit j (s.imap 0)) 0) k = true := by
      intro k hk
      rw [hset, hk, ite_self]
    by_cases h0 : j = 0
    · simp only [heq, if_pos h0, Option.some.injEq, Prod.mk.injEq] at hs
      obtain ⟨-, rfl⟩ := hs
      exact ⟨⟨I.clear, fun ino inode hi => hmap _ (I.named ino inode hi), I.owned, I.distinct⟩,
        rfl, fun _ _ => rfl, fun _ _ hi => hi⟩
    · simp only [heq, if_neg h0, Option.some.injEq, Prod.mk.injEq] at hs
      obtain ⟨-, rfl⟩ := hs
      -- the number is free in the map, so no file has it
      have hnew : s.files j = none := by
        cases hi : s.files j with
        | none => rfl
        | some inode =>
          rw [I.named j inode hi] at hbit
          cases hbit
      have I' : Inv config sb
          (s.addInode _ (initInode task (Aufs.newInode leftover) dir mode j)) :=
        I.addInode hnew (fun _ => rfl) hmap (by rw [hset]; exact if_pos rfl)
      refine ⟨I', rfl, fun _ _ => block_addInode hnew (fun _ => rfl) M I I', fun ino inode hi => ?_⟩
      have hne : ino ≠ j := by
        rintro rfl
        cases hnew.symm.trans hi
      exact (Function.update_of_ne hne ..).trans hi

/-- What changes neither the blocks of a file nor the device. -/
theorem Stepped.of_blocks (h : s.Holds sb behind spec) (I' : Inv config sb s')
    (hdev : s'.dev = s.dev)
    (hblock : ∀ ino iblock, s'.block sb behind ino iblock = s.block sb behind ino iblock)
    (hfiles : ∀ ino inode, s.files ino = some inode → s'.files ino = some inode) :
    Stepped config sb behind spec s s' := by
  have haddr : s'.addr sb behind = s.addr sb behind := by
    funext k
    rw [addr, hblock, addr]
  refine ⟨I', ⟨?_, ?_, ?_⟩, fun ino iblock b hb => (hblock ino iblock).trans hb⟩
  · rw [haddr, hdev]
    exact h.bytes
  · intro k v hk
    obtain ⟨inode, hi, hlt⟩ := h.sized k v hk
    exact ⟨inode, hfiles _ inode hi, hlt⟩
  · intro k v b hk hb
    rw [hdev]
    exact h.onDevice k v b hk ((hblock ..).symm.trans hb)

theorem Stepped.newInode (M : Mounted config sb) (I : Inv config sb s)
    (h : s.Holds sb behind spec)
    (hs : s.exec sb behind (.newInode task leftover dir mode) = some (out, s')) :
    Stepped config sb behind spec s s' := by
  obtain ⟨I', hdev, hblock, hfiles⟩ := exec_newInode M I hs
  exact .of_blocks h I' hdev hblock hfiles

/-- The first inode after mounting is number 2. -/
theorem step_newInode_mount {image : Image} {env : MkfsEnv} (H : config.Accepted)
    (R : sb.Reads config) (hf : image.Formatted config env) (behind : Nat → Nat) (dev : Device)
    (task : Task) (leftover : Fin ZONE_PTR_IN_INODE_NUM → Nat) (dir : AufsInode) (mode : Nat) :
    (mount image config dev).Step sb behind (.newInode task leftover dir mode) (.created (.ok 2))
      ((mount image config dev).addInode
        (Function.update (fun _ => minixSetBit 0 image.inodeMap) 0
          (minixSetBit 2 (minixSetBit 0 image.inodeMap)))
        (initInode task (Aufs.newInode leftover) dir mode 2)) := by
  have hnew := R.newInode_mounted H hf task (Aufs.newInode leftover) dir mode
  have himap : (mount image config dev).imap = fun _ => minixSetBit 0 image.inodeMap := rfl
  simp only [Step, exec]
  rw [himap, hnew]
  rfl

theorem Stepped.grows (M : Mounted config sb) (I : Inv config sb s) (I' : Inv config sb s')
    (h : s'.Holds sb behind spec) (g : Grows config sb ino s s') :
    Stepped config sb behind spec s s' :=
  ⟨I', h, fun _ _ _ hb => g.block M I I' hb⟩

theorem Step.stepped (M : Mounted config sb) (I : Inv config sb s) (h : s.Holds sb behind spec)
    (hs : s.Step sb behind op out s') :
    Stepped config sb behind (record spec (op, out)) s s' := by
  cases op with
  | newInode task leftover dir mode => exact .newInode M I h hs
  | getBlock ino iblock create =>
    obtain ⟨⟨ret, s₁⟩, hget, heq⟩ := Option.map_eq_some_iff.mp hs
    cases heq
    obtain ⟨I', g, hdev, -⟩ := getBlock_spec M I hget
    exact .grows M I I' (h.grows M I I' g hdev) g
  | write ino pos bytes =>
    obtain ⟨⟨n, s₁⟩, hwrite, heq⟩ := Option.map_eq_some_iff.mp hs
    cases heq
    obtain ⟨-, w⟩ := writeLoop_spec M (Nat.le_refl _) I h hwrite
    exact .grows M I w.inv w.holds w.grows
  | read ino pos len =>
    obtain ⟨inode, hi, hs⟩ := Option.bind_eq_some_iff.mp hs
    obtain ⟨⟨bytes, s₁⟩, hread, heq⟩ := Option.map_eq_some_iff.mp hs
    cases heq
    have g := readLoop_spec M (Nat.le_refl _) I h hread
    exact .grows M I g.inv (h.grows M I g.inv g.grows g.dev) g.grows

/-- Along every run the files hold what its writes have put there. -/
theorem run_holds (M : Mounted config sb) {s₀ : FileSys} (I₀ : Inv config sb s₀)
    (h₀ : s₀.Holds sb behind fun _ => none) (t : Trace (Step sb behind) s₀ h s) :
    Inv config sb s ∧ s.Holds sb behind (lastWritten h) := by
  induction t with
  | nil => exact ⟨I₀, h₀⟩
  | snoc _ hstep ih =>
    have st := Step.stepped M ih.1 ih.2 hstep
    refine ⟨st.inv, ?_⟩
    rw [lastWritten, List.foldl_append]
    exact st.holds

end FileSys

open FileSys

theorem eightZones_zoneStart (R : sb.Reads eightZones) : sb.zoneStart eightZones 2 = 1032 := by
  rw [Sb.zoneStart, R.dataBase_eq (accepted_of_parseArgs eightZones_parsed)]
  decide

theorem eightZones_onDevice (R : sb.Reads eightZones) {dev : Device} (hsize : dev.size = 2 ^ 23) :
    dev.HasBlock sb.sBlocksize (sb.zoneStart eightZones 2) := by
  have hbs : sb.sBlocksize = 4096 := R.blocksize
  rw [Device.HasBlock, hsize, hbs, eightZones_zoneStart R]
  decide

end Aufs
