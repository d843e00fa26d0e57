import Aufs.Kern.Buffers
import Aufs.Lib.Patch
import Aufs.Lib.Trace
import Aufs.Verify.Divisors
import Aufs.Verify.InodeCodec

/-! The inode table behind the buffers of the device: `minix_write_inode`, the load of
`aufs_inode_get`, and what becomes of the buffers in between. The buffers hold many inodes each, are
written by anyone at any time, and are lost when a write fails; an abstract table of slots, as seen
and as stored, says what this comes to for one inode. -/

namespace Aufs
open Bytes Word

variable {sb : Sb}

/-! ## The abstract table -/

/-- The slots, by inode number: as `aufs_inode_get` sees them, and as the device holds them. -/
structure InodeTable where
  current : Nat → Mem
  stored : Nat → Mem

namespace InodeTable

def write (T : InodeTable) (ids : OverflowIds) (inode : AufsInode) : InodeTable :=
  { T with
    current := Function.update T.current inode.iIno (v2MinixUpdateInode ids inode fun _ => 0) }

/-- Block `no` reaches the device. -/
def sync (sbi : AufsSuperBlock) (T : InodeTable) (no : Nat) : InodeTable :=
  { T with stored := fun ino =>
      if aufsInodeBlock sbi ino = no then T.current ino else T.stored ino }

/-- What has not reached the device is gone. -/
def lose (sbi : AufsSuperBlock) (T : InodeTable) (no : Nat) : InodeTable :=
  { T with current := fun ino =>
      if aufsInodeBlock sbi ino = no then T.stored ino else T.current ino }

/-- What an operation means: a successful write changes one slot, and stores its block at once if
asked to; a failed one loses what the block had waiting, and number 0 is no inode. -/
def step (sbi : AufsSuperBlock) (T : InodeTable) : TableOp × TableOut → InodeTable
  | (.writeInode ids inode syncAll _ _, .wrote (.ok _)) =>
    if syncAll then (T.write ids inode).sync sbi (aufsInodeBlock sbi inode.iIno)
    else T.write ids inode
  | (.writeInode _ inode _ _ _, .wrote (.error _)) =>
    if inode.iIno = 0 then T else T.lose sbi (aufsInodeBlock sbi inode.iIno)
  | (.writeBuffer no io, _) => if io then T.sync sbi no else T.lose sbi no
  | _ => T

/-- The table after a run. -/
def run (sbi : AufsSuperBlock) (T : InodeTable) (hist : List (TableOp × TableOut)) : InodeTable :=
  hist.foldl (step sbi) T

/-- A write that is lost leaves no trace. -/
theorem lose_write (sbi : AufsSuperBlock) (T : InodeTable) (ids : OverflowIds)
    (inode : AufsInode) :
    (T.write ids inode).lose sbi (aufsInodeBlock sbi inode.iIno) =
      T.lose sbi (aufsInodeBlock sbi inode.iIno) := by
  simp only [lose, write, InodeTable.mk.injEq, and_true]
  funext ino
  by_cases hino : ino = inode.iIno
  · rw [hino, if_pos rfl, if_pos rfl]
  · rw [Function.update_of_ne hino]

end InodeTable

/-- The table of a device without buffers. -/
def Device.inodeTable (sb : Sb) (dev : Device) : InodeTable where
  current ino k := dev.bytes
    (aufsInodeBlock sb.sbi ino * sb.sBlocksize + (aufsInodeOffset sb.sbi ino + k))
  stored ino k := dev.bytes
    (aufsInodeBlock sb.sbi ino * sb.sBlocksize + (aufsInodeOffset sb.sbi ino + k))

/-- The buffers and the device hold the slots of `T`. -/
structure BufferedDevice.Holds (sb : Sb) (s : BufferedDevice) (T : InodeTable) : Prop where
  coherent : s.blocks.Coherent sb.sBlocksize
  current : ∀ ino, sb.HasSlot ino → ∀ k < 64,
    s.blocks.view sb.sBlocksize (aufsInodeBlock sb.sbi ino) (aufsInodeOffset sb.sbi ino + k) =
      T.current ino k
  stored : ∀ ino, sb.HasSlot ino → ∀ k < 64,
    s.blocks.store (aufsInodeBlock sb.sbi ino * sb.sBlocksize +
      (aufsInodeOffset sb.sbi ino + k)) = T.stored ino k

/-! ## Slots -/

/-- `V2_minix_update_inode` overwrites the whole slot. -/
theorem v2MinixUpdateInode_congr (ids : OverflowIds) (inode : AufsInode) (raw raw' : Mem)
    (hk : k < 64) : v2MinixUpdateInode ids inode raw k = v2MinixUpdateInode ids inode raw' k := by
  rw [v2MinixUpdateInode_eq, v2MinixUpdateInode_eq]
  refine (patches_putFields .big (diFields ids inode)).fixed raw raw' k ?_
  have hspans : (diFields ids inode).map Field.span =
      [(52, 4), (48, 4), (44, 4), (40, 4), (36, 4), (56, 8), (0, 4), (4, 4), (8, 4), (12, 4),
        (16, 4), (20, 4), (24, 4), (28, 4), (32, 4)] := rfl
  rw [hspans, mem_spanBytes]
  simp only [List.mem_cons, List.not_mem_nil, or_false, exists_eq_or_imp, exists_eq_left]
  omega

/-- Block and offset name one inode, and two slots of a block share no byte. -/
theorem slot_apart {sbi : AufsSuperBlock} {ino ino' : Nat} (hne : ino' ≠ ino)
    (hblock : aufsInodeBlock sbi ino' = aufsInodeBlock sbi ino) :
    aufsInodeOffset sbi ino' + 64 ≤ aufsInodeOffset sbi ino ∨
      aufsInodeOffset sbi ino + 64 ≤ aufsInodeOffset sbi ino' := by
  have hdiv : ino' / sbi.asbInodesInBlock = ino / sbi.asbInodesInBlock := by
    unfold aufsInodeBlock at hblock
    omega
  have hmod : ino' % sbi.asbInodesInBlock ≠ ino % sbi.asbInodesInBlock := by
    intro heq
    rw [← Nat.div_add_mod ino' sbi.asbInodesInBlock, hdiv, heq, Nat.div_add_mod] at hne
    exact hne rfl
  unfold aufsInodeOffset
  omega

namespace BufferedDevice

variable {s s' : BufferedDevice} {T : InodeTable} {inode : AufsInode}

/-! ## What the calls do -/

theorem sbBread_isSome {bs no : Nat} {io : Bool} :
    (s.sbBread bs io no).isSome ↔ s.Readable bs io no := by
  unfold sbBread
  split
  · next hread => simp [hread]
  · next hread => simp [hread]

theorem not_readable {bs no : Nat} {io : Bool} (h : ¬s.Readable bs io no) :
    s.blocks.cached no = none :=
  Option.not_isSome_iff_eq_none.mp fun hsome => h (.inl hsome)

theorem aufsInodeGet_cases (h : s.aufsInodeGet sb io leftover no = (ret, s')) :
    ¬s.Readable sb.sBlocksize io (aufsInodeBlock sb.sbi no) ∧ ret = .error .eio ∧ s' = s ∨
      s.Readable sb.sBlocksize io (aufsInodeBlock sb.sbi no) ∧
        ret = Aufs.aufsInodeGet leftover no (fun k => s.blocks.view sb.sBlocksize
          (aufsInodeBlock sb.sbi no) (aufsInodeOffset sb.sbi no + k)) ∧
        s' = { s with blocks := (s.blocks.load sb.sBlocksize (aufsInodeBlock sb.sbi no)).2 } := by
  unfold aufsInodeGet sbBread at h
  by_cases hread : s.Readable sb.sBlocksize io (aufsInodeBlock sb.sbi no)
  · simp only [if_pos hread, BlockCache.load_data] at h
    cases h
    exact .inr ⟨hread, rfl, rfl⟩
  · simp only [if_neg hread] at h
    cases h
    exact .inl ⟨hread, rfl, rfl⟩

/-- The buffer with the slot, after `V2_minix_update_inode`. -/
def updated (sb : Sb) (ids : OverflowIds) (s : BufferedDevice) (inode : AufsInode) : Buf Byte where
  data := poke (s.blocks.load sb.sBlocksize (aufsInodeBlock sb.sbi inode.iIno)).1.data
    (aufsInodeOffset sb.sbi inode.iIno)
    (peek (Aufs.v2MinixUpdateInode ids inode fun k =>
      (s.blocks.load sb.sBlocksize (aufsInodeBlock sb.sbi inode.iIno)).1.data
        (aufsInodeOffset sb.sbi inode.iIno + k)) 0 64)
  dirty := true

/-- The buffers with that one among them. -/
def update (sb : Sb) (ids : OverflowIds) (s : BufferedDevice) (inode : AufsInode) :
    BufferedDevice :=
  { s with
    blocks := (s.blocks.load sb.sBlocksize (aufsInodeBlock sb.sbi inode.iIno)).2.put
      (aufsInodeBlock sb.sbi inode.iIno) (some (s.updated sb ids inode)) }

theorem minixV2RawInode_slot (hbs : sb.sBlocksize ≤ 4096) (hslot : sb.HasSlot ino)
    (sbBread : Int → Bool) :
    (minixV2RawInode sb.sbi sbBread ino).1 =
      if ino ≠ 0 ∧ sbBread (aufsInodeBlock sb.sbi ino) then
        some (↑(aufsInodeBlock sb.sbi ino), ↑(aufsInodeOffset sb.sbi ino)) else none := by
  obtain ⟨hblock, hoff⟩ := hslot
  have hoff : aufsInodeOffset sb.sbi ino < 2 ^ 31 := by omega
  unfold minixV2RawInode
  by_cases hino : ino = 0
  · simp [hino]
  · rw [if_neg hino, i32_of_lt hblock, i32_of_lt hoff]
    simp only [ne_eq, hino, not_false_eq_true, true_and]

theorem v2MinixUpdateInode_eq_some (hbs : sb.sBlocksize ≤ 4096) (hslot : sb.HasSlot inode.iIno)
    (io : Bool) :
    s.v2MinixUpdateInode sb ids io inode =
      if inode.iIno ≠ 0 ∧ s.Readable sb.sBlocksize io (aufsInodeBlock sb.sbi inode.iIno) then
        some (aufsInodeBlock sb.sbi inode.iIno, s.updated sb ids inode, s.update sb ids inode)
      else none := by
  have hno : u64OfInt (aufsInodeBlock sb.sbi inode.iIno : Int) =
      aufsInodeBlock sb.sbi inode.iIno :=
    u64OfInt_natCast (Nat.lt_trans hslot.1 (by decide))
  unfold BufferedDevice.v2MinixUpdateInode
  simp only [minixV2RawInode_slot hbs hslot, hno, sbBread_isSome]
  split
  · next h =>
    simp only [sbBread, if_pos h.2, hno, Int.toNat_natCast, Option.bind_eq_bind, Option.bind_some,
      Option.pure_def, updated, update]
  · rfl

/-- `minix_write_inode` on an inode that has a slot. -/
theorem minixWriteInode_eq (hbs : sb.sBlocksize ≤ 4096) (hslot : sb.HasSlot inode.iIno)
    (syncAll readOk writeOk : Bool) :
    s.minixWriteInode sb ids inode syncAll readOk writeOk =
      if inode.iIno ≠ 0 ∧ s.Readable sb.sBlocksize readOk (aufsInodeBlock sb.sbi inode.iIno) then
        if syncAll then
          (if writeOk then .ok () else .error .eio,
            (s.update sb ids inode).submit sb.sBlocksize writeOk (aufsInodeBlock sb.sbi inode.iIno)
              (s.updated sb ids inode))
        else (.ok (), s.update sb ids inode)
      else (.error .eio, s) := by
  rw [minixWriteInode, v2MinixUpdateInode_eq_some hbs hslot]
  by_cases h : inode.iIno ≠ 0 ∧
      s.Readable sb.sBlocksize readOk (aufsInodeBlock sb.sbi inode.iIno)
  · rw [if_pos h, if_pos h]
  · rw [if_neg h, if_neg h]

/-! ## The table over one operation -/

namespace Holds

/-- Bringing a block in. -/
theorem load (h : s.Holds sb T) (no : Nat) :
    Holds sb { s with blocks := (s.blocks.load sb.sBlocksize no).2 } T where
  coherent := h.coherent.load
  current ino hslot k hk := BlockCache.load_view.trans (h.current ino hslot k hk)
  stored ino hslot k hk := by
    rw [BlockCache.load_store]
    exact h.stored ino hslot k hk

/-- The slot of an inode in the buffer of its block, after an update. -/
theorem updated_slot (h : s.Holds sb T) (hslot : sb.HasSlot ino)
    (hblock : aufsInodeBlock sb.sbi ino = aufsInodeBlock sb.sbi inode.iIno) (hk : k < 64) :
    (s.updated sb ids inode).data (aufsInodeOffset sb.sbi ino + k) =
      (T.write ids inode).current ino k := by
  by_cases hino : ino = inode.iIno
  · subst hino
    simp only [InodeTable.write, Function.update_self, updated]
    rw [poke_peek hk, Nat.zero_add]
    exact v2MinixUpdateInode_congr _ _ _ _ hk
  · have hapart := slot_apart hino hblock
    simp only [InodeTable.write, Function.update_of_ne hino, updated]
    rw [poke_outside (by rw [peek_length]; omega), BlockCache.load_data, ← hblock]
    exact h.current ino hslot k hk

/-- An inode is written to the buffer of its block. -/
theorem write (h : s.Holds sb T) (ids : OverflowIds) (inode : AufsInode) :
    (s.update sb ids inode).Holds sb (T.write ids inode) where
  coherent := h.coherent.load.put fun _ hbuf hclean => by
    cases hbuf
    cases hclean
  current ino hslot k hk := by
    by_cases hblock : aufsInodeBlock sb.sbi ino = aufsInodeBlock sb.sbi inode.iIno
    · rw [hblock, update, BlockCache.view_put_some]
      exact h.updated_slot hslot hblock hk
    · have hino : ino ≠ inode.iIno := fun heq => hblock (by rw [heq])
      rw [update, BlockCache.view_put_ne hblock, BlockCache.load_view]
      simp only [InodeTable.write, Function.update_of_ne hino]
      exact h.current ino hslot k hk
  stored := (h.load (aufsInodeBlock sb.sbi inode.iIno)).stored

/-- A buffer reaches the device, or is lost. -/
theorem submit (h : s.Holds sb T) (hbuf : s.blocks.cached no = some bh) (io : Bool) :
    (s.submit sb.sBlocksize io no bh).Holds sb
      (if io then T.sync sb.sbi no else T.lose sb.sbi no) := by
  cases io with
  | true =>
    refine ⟨h.coherent.writeBack, fun ino hslot k hk => ?_, fun ino hslot k hk => ?_⟩
    · refine Eq.trans ?_ (h.current ino hslot k hk)
      have hoff := hslot.2
      by_cases hblock : aufsInodeBlock sb.sbi ino = no
      · subst hblock
        exact BlockCache.writeBack_view_self.trans (BlockCache.view_cached hbuf).symm
      · exact BlockCache.writeBack_view_ne hblock (by omega)
    · have hoff := hslot.2
      simp only [if_true, InodeTable.sync]
      by_cases hblock : aufsInodeBlock sb.sbi ino = no
      · subst hblock
        rw [if_pos rfl, ← h.current ino hslot k hk, BlockCache.view_cached hbuf]
        exact BlockCache.writeBack_store_self (by omega)
      · rw [if_neg hblock, ← h.stored ino hslot k hk]
        exact BlockCache.writeBack_store_ne hblock (by omega)
  | false =>
    refine ⟨h.coherent.put nofun, fun ino hslot k hk => ?_, h.stored⟩
    simp only [Bool.false_eq_true, if_false, InodeTable.lose, BufferedDevice.submit]
    by_cases hblock : aufsInodeBlock sb.sbi ino = no
    · subst hblock
      rw [if_pos rfl, BlockCache.view_put_none, h.stored ino hslot k hk]
    · rw [if_neg hblock, BlockCache.view_put_ne hblock, h.current ino hslot k hk]

/-- A clean buffer is taken away. -/
theorem reclaim (h : s.Holds sb T) (hbuf : s.blocks.cached no = some bh)
    (hclean : bh.dirty = false) :
    Holds sb { s with blocks := s.blocks.put no none } T where
  coherent := h.coherent.put nofun
  current ino hslot k hk := by
    by_cases hblock : aufsInodeBlock sb.sbi ino = no
    · subst hblock
      have hoff := hslot.2
      rw [BlockCache.view_put_none, ← h.current ino hslot k hk, BlockCache.view_cached hbuf]
      exact (h.coherent _ bh hbuf hclean _ (by omega)).symm
    · rw [BlockCache.view_put_ne hblock, h.current ino hslot k hk]
  stored := h.stored

/-- Losing a block that has nothing waiting. -/
theorem lose (h : s.Holds sb T) (hbuf : s.blocks.cached no = none) :
    s.Holds sb (T.lose sb.sbi no) where
  coherent := h.coherent
  current ino hslot k hk := by
    simp only [InodeTable.lose]
    by_cases hblock : aufsInodeBlock sb.sbi ino = no
    · subst hblock
      rw [if_pos rfl, BlockCache.view_uncached hbuf]
      exact h.stored ino hslot k hk
    · rw [if_neg hblock]
      exact h.current ino hslot k hk
  stored := h.stored

end Holds

/-- Before any block is read. -/
theorem holds_inodeTable (hempty : s.blocks.cached = fun _ => none) :
    s.Holds sb (s.dev.inodeTable sb) where
  coherent no buf hbuf := by
    rw [hempty] at hbuf
    cases hbuf
  current ino _ k _ := BlockCache.view_uncached (congrFun hempty _)
  stored _ _ _ _ := rfl

end BufferedDevice

open BufferedDevice

section
variable {s s' : BufferedDevice} {T : InodeTable}

theorem TableStep.holds (hbs : sb.sBlocksize ≤ 4096) (h : s.Holds sb T)
    (hs : TableStep sb s op out s') : s'.Holds sb (T.step sb.sbi (op, out)) := by
  cases hs with
  | @writeInode ids inode syncAll readOk writeOk ret _ hslot hcall =>
    rw [minixWriteInode_eq hbs hslot] at hcall
    by_cases hread : inode.iIno ≠ 0 ∧
        s.Readable sb.sBlocksize readOk (aufsInodeBlock sb.sbi inode.iIno)
    · rw [if_pos hread] at hcall
      have hwrite := h.write ids inode
      cases syncAll with
      | false =>
        cases hcall
        exact hwrite
      | true =>
        have hsubmit := hwrite.submit BlockCache.put_cached writeOk
        cases writeOk with
        | true =>
          cases hcall
          exact hsubmit
        | false =>
          cases hcall
          have hstep : T.step sb.sbi
              (.writeInode ids inode true readOk false, .wrote (.error .eio)) =
              (T.write ids inode).lose sb.sbi (aufsInodeBlock sb.sbi inode.iIno) :=
            (if_neg hread.1).trans (T.lose_write ..).symm
          exact hstep ▸ hsubmit
    · rw [if_neg hread] at hcall
      cases hcall
      simp only [InodeTable.step]
      split
      · exact h
      · next hino =>
        exact h.lose (not_readable fun hr => hread ⟨hino, hr⟩)
  | @inodeGet no io leftover _ _ hslot hcall =>
    rcases aufsInodeGet_cases hcall with ⟨-, -, rfl⟩ | ⟨-, -, rfl⟩
    · exact h
    · exact h.load _
  | writeBuffer hbuf _ => exact h.submit hbuf _
  | reclaim hbuf hclean => exact h.reclaim hbuf hclean

theorem run_holds (hbs : sb.sBlocksize ≤ 4096) (h : s.Holds sb T)
    (t : Trace (TableStep sb) s hist s') : s'.Holds sb (T.run sb.sbi hist) := by
  induction t with
  | nil => exact h
  | snoc _ hstep ih =>
    rw [InodeTable.run, List.foldl_append]
    exact hstep.holds hbs ih

/-- A slot of a regular file or a directory loads. -/
theorem aufsInodeGet_of_mode {leftover : Fin ZONE_PTR_IN_INODE_NUM → Nat} {no : Nat} {di : Mem}
    (h : sIsReg (aufsInodeFill { newInode leftover with iIno := no } di).iMode ∨
      sIsDir (aufsInodeFill { newInode leftover with iIno := no } di).iMode) :
    aufsInodeGet leftover no di = .ok (aufsInodeFill { newInode leftover with iIno := no } di) := by
  simp only [aufsInodeGet]
  rcases h with h | h
  · rw [if_pos h]
  · rw [if_pos h, ite_self]

theorem aufsInodeGet_congr {di di' : Mem} (h : ∀ k < 64, di k = di' k)
    (leftover : Fin ZONE_PTR_IN_INODE_NUM → Nat) (no : Nat) :
    aufsInodeGet leftover no di = aufsInodeGet leftover no di' := by
  rw [aufsInodeGet, aufsInodeGet, aufsInodeFill_congr h]

/-- What `aufs_inode_get` gives when the buffers hold the slots of `T`. -/
theorem BufferedDevice.Holds.get (h : s.Holds sb T)
    (hs : TableStep sb s (.inodeGet no io leftover) (.got ret) s') :
    ret = if s.Readable sb.sBlocksize io (aufsInodeBlock sb.sbi no) then
      Aufs.aufsInodeGet leftover no (T.current no) else .error .eio := by
  cases hs with
  | inodeGet hslot hcall =>
    rcases aufsInodeGet_cases hcall with ⟨hread, hret, -⟩ | ⟨hread, hret, -⟩
    · rw [if_neg hread, hret]
    · rw [if_pos hread, hret]
      exact aufsInodeGet_congr (h.current no hslot) leftover no

theorem TableStep.write_ok_iff (hbs : sb.sBlocksize ≤ 4096)
    (hs : TableStep sb s (.writeInode ids inode syncAll readOk writeOk) (.wrote ret) s') :
    ret = .ok () ↔ inode.iIno ≠ 0 ∧
      s.Readable sb.sBlocksize readOk (aufsInodeBlock sb.sbi inode.iIno) ∧
      (syncAll = true → writeOk = true) := by
  cases hs with
  | writeInode hslot hcall =>
    rw [minixWriteInode_eq hbs hslot] at hcall
    rw [← and_assoc]
    by_cases hread : inode.iIno ≠ 0 ∧
        s.Readable sb.sBlocksize readOk (aufsInodeBlock sb.sbi inode.iIno)
    · rw [if_pos hread] at hcall
      cases syncAll <;> cases writeOk <;> cases hcall <;> simp [hread]
    · rw [if_neg hread] at hcall
      cases hcall
      simp [hread]

end

theorem aufsFillSb_blocksize_le (dsb : Mem) : (aufsFillSb dsb).sBlocksize ≤ 4096 := by
  simp only [aufsFillSb]
  split
  · exact Nat.le_refl _
  · omega

/-- Whatever the super block says, and in whatever order inodes that have a slot are written and
loaded, buffers flushed, lost and reclaimed: the buffers and the device hold the slots of the
abstract table; `minix_write_inode` succeeds if the block can be had and, with `WB_SYNC_ALL`,
stored; and `aufs_inode_get` loads the slot of the table. -/
theorem inode_table_refines {dsb : Mem} {s₀ s : BufferedDevice}
    {hist : List (TableOp × TableOut)} (hempty : s₀.blocks.cached = fun _ => none)
    (t : Trace (TableStep (aufsFillSb dsb)) s₀ hist s) :
    s.Holds (aufsFillSb dsb)
      ((s₀.dev.inodeTable (aufsFillSb dsb)).run (aufsFillSb dsb).sbi hist) ∧
    (∀ ids inode syncAll readOk writeOk ret s',
      TableStep (aufsFillSb dsb) s (.writeInode ids inode syncAll readOk writeOk) (.wrote ret) s' →
      (ret = .ok () ↔ inode.iIno ≠ 0 ∧ s.Readable (aufsFillSb dsb).sBlocksize readOk
          (aufsInodeBlock (aufsFillSb dsb).sbi inode.iIno) ∧
        (syncAll = true → writeOk = true))) ∧
    ∀ no io leftover ret s',
      TableStep (aufsFillSb dsb) s (.inodeGet no io leftover) (.got ret) s' →
      ret = if s.Readable (aufsFillSb dsb).sBlocksize io (aufsInodeBlock (aufsFillSb dsb).sbi no)
        then aufsInodeGet leftover no
          (((s₀.dev.inodeTable (aufsFillSb dsb)).run (aufsFillSb dsb).sbi hist).current no)
        else .error .eio := by
  have hbs := aufsFillSb_blocksize_le dsb
  have h := run_holds hbs (holds_inodeTable hempty) t
  exact ⟨h, fun _ _ _ _ _ _ _ hs => hs.write_ok_iff hbs, fun _ _ _ _ _ hs => h.get hs⟩

/-! ## A directory on eight zones -/

/-- Inode 2, a directory of user 1000. -/
def newDirectory : AufsInode := { inodeOf 1000 with iIno := 2 }

theorem newDirectory_fits : newDirectory.Fits :=
  ⟨by decide, by decide, by decide, by decide, by decide, by decide,
    fun _ => show 0 < 2 ^ 32 by decide⟩

/-- It goes to the inode table of a new file system, in block 3. -/
theorem exists_stored :
    ∃ image s₀ s, mkfs rootEnv 1 eightZones (blankDevice (2 ^ 20)) = some image ∧
      (s₀.blocks.cached = fun _ => none) ∧
      s₀.dev = image.device eightZones (blankDevice (2 ^ 20)) ∧
      (aufsFillSb image.superBlock).HasSlot 2 ∧
      aufsInodeBlock (aufsFillSb image.superBlock).sbi 2 = 3 ∧
      TableStep (aufsFillSb image.superBlock) s₀
        (.writeInode defaultIds newDirectory true true true) (.wrote (.ok ())) s ∧
      ∃ bh, s.blocks.cached 3 = some bh ∧ bh.dirty = false ∧
        s.dev.HasBlock (aufsFillSb image.superBlock).sBlocksize 3 := by
  have H := accepted_of_parseArgs eightZones_parsed
  obtain ⟨image, himage, -, R⟩ := exists_image H rootEnv (blankDevice (2 ^ 20))
  have hbs : (aufsFillSb image.superBlock).sBlocksize = 4096 := R.blocksize
  have hblock : aufsInodeBlock (aufsFillSb image.superBlock).sbi 2 = 3 := by
    rw [aufsInodeBlock, R.inodeMapBlocks, R.zoneMapBlocks, R.inodesInBlock]
  have hslot : (aufsFillSb image.superBlock).HasSlot 2 := by
    rw [Sb.HasSlot, hblock, aufsInodeOffset, R.inodesInBlock, hbs]
    decide
  let s₀ : BufferedDevice :=
    { size := 2 ^ 20
      blocks := { store := (image.device eightZones (blankDevice (2 ^ 20))).bytes
                  cached := fun _ => none } }
  have hon : s₀.dev.HasBlock (aufsFillSb image.superBlock).sBlocksize 3 := by
    rw [hbs]
    change (3 + 1) * 4096 ≤ 2 ^ 20
    decide
  have hcall : s₀.minixWriteInode (aufsFillSb image.superBlock) defaultIds newDirectory true true
      true = _ :=
    minixWriteInode_eq (Nat.le_of_eq hbs) hslot true true true
  have hread : newDirectory.iIno ≠ 0 ∧ s₀.Readable (aufsFillSb image.superBlock).sBlocksize true
      (aufsInodeBlock (aufsFillSb image.superBlock).sbi newDirectory.iIno) :=
    ⟨Nat.succ_ne_zero 1, .inr ⟨rfl, hblock ▸ hon⟩⟩
  rw [if_pos hread] at hcall
  refine ⟨image, s₀, _, himage, rfl, rfl, hslot, hblock, .writeInode hslot hcall,
    { s₀.updated (aufsFillSb image.superBlock) defaultIds newDirectory with dirty := false }, ?_,
    rfl, hon⟩
  rw [show aufsInodeBlock (aufsFillSb image.superBlock).sbi newDirectory.iIno = 3 from hblock]
  exact BlockCache.writeBack_cached

/-- Loaded again, it is what the table has. -/
theorem inode_table_refines_eightZones :
    ∃ image s₀ s ret s', mkfs rootEnv 1 eightZones (blankDevice (2 ^ 20)) = some image ∧
      Trace (TableStep (aufsFillSb image.superBlock)) s₀
        [(.writeInode defaultIds newDirectory true true true, .wrote (.ok ()))] s ∧
      TableStep (aufsFillSb image.superBlock) s (.inodeGet 2 true fun _ => 0) (.got ret) s' ∧
      ret = aufsInodeGet (fun _ => 0) 2
        (v2MinixUpdateInode defaultIds newDirectory fun _ => 0) := by
  obtain ⟨image, s₀, s, himage, hempty, -, hslot, hblock, hwrite, bh, hbuf, -⟩ := exists_stored
  have hget : TableStep (aufsFillSb image.superBlock) s (.inodeGet 2 true fun _ => 0) _ _ :=
    .inodeGet hslot rfl
  refine ⟨image, s₀, s, _, _, himage, .single hwrite, hget, ?_⟩
  have hret := (inode_table_refines hempty (.single hwrite)).2.2 _ _ _ _ _ hget
  rw [if_pos (.inl (by rw [hblock, hbuf]; rfl))] at hret
  exact hret

/-! ## A stored inode -/

/-- Nothing but another write of inode `ino` changes a slot that is stored as it is seen. -/
theorem InodeTable.step_keeps {T : InodeTable} {x : TableOp × TableOut}
    (h : T.current ino = m ∧ T.stored ino = m)
    (hx : ∀ ids inode syncAll readOk writeOk,
      x = (.writeInode ids inode syncAll readOk writeOk, .wrote (.ok ())) → inode.iIno ≠ ino) :
    (T.step sbi x).current ino = m ∧ (T.step sbi x).stored ino = m := by
  have hsync : ∀ {T : InodeTable} (no : Nat), T.current ino = m ∧ T.stored ino = m →
      (T.sync sbi no).current ino = m ∧ (T.sync sbi no).stored ino = m := by
    intro T no h
    exact ⟨h.1, by simp only [sync, h, ite_self]⟩
  have hlose : ∀ no, (T.lose sbi no).current ino = m ∧ (T.lose sbi no).stored ino = m := by
    intro no
    exact ⟨by simp only [lose, h, ite_self], h.2⟩
  obtain ⟨op, out⟩ := x
  cases op with
  | writeInode ids inode syncAll readOk writeOk =>
    cases out with
    | wrote ret =>
      cases ret with
      | ok =>
        have hne := hx ids inode syncAll readOk writeOk rfl
        have hwrite : (T.write ids inode).current ino = m ∧ (T.write ids inode).stored ino = m :=
          ⟨(Function.update_of_ne hne.symm ..).trans h.1, h.2⟩
        simp only [step]
        split
        · exact hsync _ hwrite
        · exact hwrite
      | error =>
        simp only [step]
        split
        · exact h
        · exact hlose _
    | got => exact h
    | done => exact h
  | inodeGet => exact h
  | writeBuffer no io =>
    cases io with
    | true => exact hsync no h
    | false => exact hlose no
  | reclaim => exact h

theorem InodeTable.run_keeps {T : InodeTable} {hist : List (TableOp × TableOut)}
    (h : T.current ino = m ∧ T.stored ino = m)
    (hkept : ∀ x ∈ hist, ∀ ids inode syncAll readOk writeOk,
      x = (.writeInode ids inode syncAll readOk writeOk, .wrote (.ok ())) → inode.iIno ≠ ino) :
    (T.run sbi hist).current ino = m ∧ (T.run sbi hist).stored ino = m := by
  unfold run
  induction hist generalizing T with
  | nil => exact h
  | cons x hist ih =>
    exact ih (step_keeps h (hkept x List.mem_cons_self))
      fun y hy => hkept y (List.mem_cons_of_mem _ hy)

/-- An inode that `minix_write_inode` has stored under `WB_SYNC_ALL` stays on the device and is what
`aufs_inode_get` gives, whatever is written, lost, flushed or reclaimed afterwards, until the inode
is written again. -/
theorem synced_inode_kept {dsb : Mem} {s₀ s₁ s₂ s : BufferedDevice}
    {hist hist' : List (TableOp × TableOut)} {inode : AufsInode}
    (hempty : s₀.blocks.cached = fun _ => none) (hfits : inode.Fits) (huid : inode.iUid < 2 ^ 16)
    (hgid : inode.iGid < 2 ^ 16) (t : Trace (TableStep (aufsFillSb dsb)) s₀ hist s₁)
    (hs : TableStep (aufsFillSb dsb) s₁ (.writeInode ids inode true readOk writeOk)
      (.wrote (.ok ())) s₂)
    (t' : Trace (TableStep (aufsFillSb dsb)) s₂ hist' s)
    (hkept : ∀ x ∈ hist', ∀ ids' inode' syncAll readOk writeOk,
      x = (.writeInode ids' inode' syncAll readOk writeOk, .wrote (.ok ())) →
      inode'.iIno ≠ inode.iIno) :
    (∀ other, inode.SameOnDisk
      (aufsInodeFill other ((s.dev.inodeTable (aufsFillSb dsb)).stored inode.iIno))) ∧
    ∀ io leftover ret s',
      TableStep (aufsFillSb dsb) s (.inodeGet inode.iIno io leftover) (.got ret) s' →
      s.Readable (aufsFillSb dsb).sBlocksize io
        (aufsInodeBlock (aufsFillSb dsb).sbi inode.iIno) →
      sIsReg inode.iMode ∨ sIsDir inode.iMode →
      ∃ inode', ret = .ok inode' ∧ inode.SameOnDisk inode' := by
  have hbs := aufsFillSb_blocksize_le dsb
  have hslot : (aufsFillSb dsb).HasSlot inode.iIno := by
    cases hs with
    | writeInode hslot _ => exact hslot
  have h₂ := hs.holds hbs (run_holds hbs (holds_inodeTable hempty) t)
  generalize InodeTable.run _ _ hist = T at h₂
  have hstored : (T.step (aufsFillSb dsb).sbi
        (.writeInode ids inode true readOk writeOk, .wrote (.ok ()))).current inode.iIno =
          v2MinixUpdateInode ids inode (fun _ => 0) ∧
      (T.step (aufsFillSb dsb).sbi
        (.writeInode ids inode true readOk writeOk, .wrote (.ok ()))).stored inode.iIno =
          v2MinixUpdateInode ids inode (fun _ => 0) := by
    simp [InodeTable.step, InodeTable.sync, InodeTable.write]
  have h := run_holds hbs h₂ t'
  obtain ⟨hcurrent, hstored⟩ := InodeTable.run_keeps hstored hkept
  have hsame : ∀ other, inode.SameOnDisk
      (aufsInodeFill other (v2MinixUpdateInode ids inode fun _ => 0)) :=
    fun _ => (store_load_iff hfits).mpr ⟨huid, hgid⟩
  refine ⟨fun other => ?_, ?_⟩
  · have hslot := h.stored inode.iIno hslot
    rw [hstored] at hslot
    have heq : aufsInodeFill other ((s.dev.inodeTable (aufsFillSb dsb)).stored inode.iIno) = _ :=
      aufsInodeFill_congr hslot
    rw [heq]
    exact hsame other
  · intro io leftover ret s' hget hread hmode
    have hret := h.get hget
    have hsame := hsame { newInode leftover with iIno := inode.iIno }
    rw [if_pos hread, hcurrent] at hret
    refine ⟨_, hret.trans (aufsInodeGet_of_mode ?_), hsame⟩
    rwa [hsame.mode]

/-- Its buffer is reclaimed, and it is loaded from the device. -/
theorem synced_inode_kept_eightZones :
    ∃ image, ∃ s₀ s s' : BufferedDevice, ∃ ret inode',
      mkfs rootEnv 1 eightZones (blankDevice (2 ^ 20)) = some image ∧
      Trace (TableStep (aufsFillSb image.superBlock)) s₀
        [(.writeInode defaultIds newDirectory true true true, .wrote (.ok ())),
          (.reclaim 3, .done)] s ∧
      s.blocks.cached 3 = none ∧
      TableStep (aufsFillSb image.superBlock) s (.inodeGet 2 true fun _ => 0) (.got ret) s' ∧
      ret = .ok inode' ∧ newDirectory.SameOnDisk inode' := by
  obtain ⟨image, s₀, s, himage, hempty, -, hslot, hblock, hwrite, bh, hbuf, hclean, hon⟩ :=
    exists_stored
  have hreclaim : TableStep (aufsFillSb image.superBlock) s (.reclaim 3) .done _ :=
    .reclaim hbuf hclean
  have hget : TableStep (aufsFillSb image.superBlock) { s with blocks := s.blocks.put 3 none }
      (.inodeGet 2 true fun _ => 0) _ _ := .inodeGet hslot rfl
  have hkept : ∀ x ∈ [((.reclaim 3, .done) : TableOp × TableOut)],
      ∀ ids' inode' syncAll readOk writeOk,
      x = (.writeInode ids' inode' syncAll readOk writeOk, .wrote (.ok ())) →
      inode'.iIno ≠ newDirectory.iIno := by
    intro x hx ids' inode' syncAll readOk writeOk heq
    cases heq.symm.trans (List.mem_singleton.mp hx)
  obtain ⟨inode', hret, hsame⟩ := (synced_inode_kept hempty newDirectory_fits (by decide)
    (by decide) .nil hwrite (.single hreclaim) hkept).2 _ _ _ _ hget
    (.inr ⟨rfl, hblock ▸ hon⟩) (.inr (by decide))
  exact ⟨image, s₀, _, _, _, inode', himage, (Trace.single hwrite).snoc hreclaim,
    BlockCache.put_cached, hget, hret, hsame⟩

end Aufs
