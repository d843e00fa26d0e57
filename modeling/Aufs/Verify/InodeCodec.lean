import Aufs.Kern.Inode
import Aufs.Mkfs.Format

/-! The three codecs of an inode slot: the setters of mkfs, `V2_minix_update_inode` and
`aufs_inode_fill`. They agree on where the words lie and on their byte order. The store cuts the
ids to 16 bits, though the words of the slot have 32 and neither mkfs nor the load cuts them. -/

namespace Aufs
open Bytes Word

/-! ## The words of a slot -/

section
variable {ids : OverflowIds} {inode other : AufsInode} {raw di : Mem}

theorem mem_diFields_mode (ids : OverflowIds) (inode : AufsInode) :
    (⟨diMode, 4, inode.iMode⟩ : Field) ∈ diFields ids inode :=
  List.mem_append_left _ (.head _)

theorem mem_diFields_uid (ids : OverflowIds) (inode : AufsInode) :
    (⟨diUid, 4, fsHigh2lowid ids.fsOverflowuid inode.iUid⟩ : Field) ∈ diFields ids inode :=
  List.mem_append_left _ (.tail _ (.head _))

theorem mem_diFields_gid (ids : OverflowIds) (inode : AufsInode) :
    (⟨diGid, 4, fsHigh2lowid ids.fsOverflowgid inode.iGid⟩ : Field) ∈ diFields ids inode :=
  List.mem_append_left _ (.tail _ (.tail _ (.head _)))

theorem mem_diFields_blocks (ids : OverflowIds) (inode : AufsInode) :
    (⟨diBlocks, 4, inode.iBlocks⟩ : Field) ∈ diFields ids inode :=
  List.mem_append_left _ (.tail _ (.tail _ (.tail _ (.tail _ (.head _)))))

theorem mem_diFields_ctime (ids : OverflowIds) (inode : AufsInode) :
    (⟨diCtime, 8, inode.iCtime⟩ : Field) ∈ diFields ids inode :=
  List.mem_append_left _ (.tail _ (.tail _ (.tail _ (.tail _ (.tail _ (.head _))))))

theorem fsHigh2lowid_lt (overflow : Fin (2 ^ 16)) (id : Nat) :
    fsHigh2lowid overflow id < 2 ^ 16 := by
  unfold fsHigh2lowid
  split
  · assumption
  · exact overflow.isLt

/-- Ids of 16 bits, and no others, are stored as they are. -/
theorem fsHigh2lowid_eq_iff (overflow : Fin (2 ^ 16)) {n : Nat} :
    fsHigh2lowid overflow n = n ↔ n < 2 ^ 16 := by
  constructor
  · intro h
    exact h ▸ fsHigh2lowid_lt overflow n
  · intro h
    exact if_pos h

/-! ## Storing and loading -/

/-- The ranges of the fields of an inode. -/
structure AufsInode.Fits (inode : AufsInode) : Prop where
  mode : inode.iMode < 2 ^ 16
  uid : inode.iUid < 2 ^ 32
  gid : inode.iGid < 2 ^ 32
  size : inode.iSize < 2 ^ 32
  blocks : inode.iBlocks < 2 ^ 32
  ctime : inode.iCtime < 2 ^ 64
  zonePtr : ∀ i, inode.aiZonePtr i < 2 ^ 32

/-- `inode'` has the fields of `inode` that a slot holds. -/
structure AufsInode.SameOnDisk (inode inode' : AufsInode) : Prop where
  mode : inode'.iMode = inode.iMode
  uid : inode'.iUid = inode.iUid
  gid : inode'.iGid = inode.iGid
  size : inode'.iSize = inode.iSize
  blocks : inode'.iBlocks = inode.iBlocks
  ctime : inode'.iCtime = inode.iCtime
  zonePtr : inode'.aiZonePtr = inode.aiZonePtr

/-- A value of 16 bits fits a word of four bytes. -/
theorem mod_word_of_lt {n : Nat} (h : n < 2 ^ 16) : n % 256 ^ 4 = n :=
  Nat.mod_eq_of_lt (Nat.lt_trans h (by decide))

theorem be32_update_uid (ids : OverflowIds) (inode : AufsInode) (raw : Mem) :
    be32 (v2MinixUpdateInode ids inode raw) diUid = fsHigh2lowid ids.fsOverflowuid inode.iUid :=
  (getWord_update (mem_diFields_uid ids inode)).trans (mod_word_of_lt (fsHigh2lowid_lt _ _))

theorem be32_update_gid (ids : OverflowIds) (inode : AufsInode) (raw : Mem) :
    be32 (v2MinixUpdateInode ids inode raw) diGid = fsHigh2lowid ids.fsOverflowgid inode.iGid :=
  (getWord_update (mem_diFields_gid ids inode)).trans (mod_word_of_lt (fsHigh2lowid_lt _ _))

theorem be32_update_mode (h : inode.iMode < 2 ^ 16) :
    be32 (v2MinixUpdateInode ids inode raw) diMode = inode.iMode :=
  (getWord_update (mem_diFields_mode ids inode)).trans (mod_word_of_lt h)

theorem store_load_iff (h : inode.Fits) :
    inode.SameOnDisk (aufsInodeFill other (v2MinixUpdateInode ids inode raw)) ↔
      inode.iUid < 2 ^ 16 ∧ inode.iGid < 2 ^ 16 := by
  rw [← fsHigh2lowid_eq_iff ids.fsOverflowuid, ← fsHigh2lowid_eq_iff ids.fsOverflowgid]
  have huid := be32_update_uid ids inode raw
  have hgid := be32_update_gid ids inode raw
  constructor
  · intro same
    exact ⟨huid.symm.trans same.uid, hgid.symm.trans same.gid⟩
  · rintro ⟨hu, hg⟩
    refine ⟨?_, huid.trans hu, hgid.trans hg, (aufsInodeFill_update h.zonePtr h.size).2, ?_, ?_,
      (aufsInodeFill_update h.zonePtr h.size).1⟩
    · simp only [aufsInodeFill, be32_update_mode h.mode, Nat.mod_eq_of_lt h.mode]
    · exact (getWord_update (mem_diFields_blocks ids inode)).trans (Nat.mod_eq_of_lt h.blocks)
    · exact (getWord_update (mem_diFields_ctime ids inode)).trans (Nat.mod_eq_of_lt h.ctime)

/-! ## Loading and storing -/

/-- Loading the slot `di` and storing it back leaves its 64 bytes. -/
def KeepsSlot (ids : OverflowIds) (other : AufsInode) (di : Mem) : Prop :=
  ∀ k < 64, v2MinixUpdateInode ids (aufsInodeFill other di) di k = di k

/-- The words of the slot that are wider than what they are loaded into or stored from hold no more
than 16 bits. -/
structure NarrowWords (di : Mem) : Prop where
  mode : be32 di diMode < 2 ^ 16
  uid : be32 di diUid < 2 ^ 16
  gid : be32 di diGid < 2 ^ 16

/-- A word that the store leaves is the word that it stores. -/
theorem KeepsSlot.word {f : Field} (h : KeepsSlot ids other di)
    (hf : f ∈ diFields ids (aufsInodeFill other di)) (hoff : f.off + f.width ≤ 64) :
    getWord .big di f.off f.width = f.value % 256 ^ f.width := by
  rw [← getWord_update hf, getWord, getWord]
  exact congrArg _ (peek_congr fun k hk => (h _ (by omega)).symm)

/-- If the wide words are narrow, all words of a slot that is loaded are the words stored back. -/
theorem NarrowWords.words (h : NarrowWords di) :
    ∀ f ∈ diFields ids (aufsInodeFill other di), f.value = getWord .big di f.off f.width := by
  intro f hf
  rcases List.mem_append.mp hf with hf | hf
  · simp only [List.mem_cons, List.not_mem_nil, or_false] at hf
    rcases hf with rfl | rfl | rfl | rfl | rfl | rfl
    · exact Nat.mod_eq_of_lt h.mode
    · exact (fsHigh2lowid_eq_iff _).mpr h.uid
    · exact (fsHigh2lowid_eq_iff _).mpr h.gid
    · rfl
    · rfl
    · rfl
  · obtain ⟨i, -, rfl⟩ := List.mem_map.mp hf
    rfl

/-- Whatever wrote it, a slot survives exactly when its mode and ids have 16 bits. -/
theorem load_store_iff : KeepsSlot ids other di ↔ NarrowWords di := by
  constructor
  · intro h
    have hlt : (aufsInodeFill other di).iMode < 2 ^ 16 := Nat.mod_lt _ (by decide)
    have hmode : be32 di diMode = (aufsInodeFill other di).iMode :=
      (h.word (mem_diFields_mode ids _) (show 52 + 4 ≤ 64 by decide)).trans (mod_word_of_lt hlt)
    have huid : be32 di diUid = fsHigh2lowid ids.fsOverflowuid (aufsInodeFill other di).iUid :=
      (h.word (mem_diFields_uid ids _) (show 48 + 4 ≤ 64 by decide)).trans
        (mod_word_of_lt (fsHigh2lowid_lt _ _))
    have hgid : be32 di diGid = fsHigh2lowid ids.fsOverflowgid (aufsInodeFill other di).iGid :=
      (h.word (mem_diFields_gid ids _) (show 44 + 4 ≤ 64 by decide)).trans
        (mod_word_of_lt (fsHigh2lowid_lt _ _))
    exact ⟨hmode ▸ hlt, huid ▸ fsHigh2lowid_lt _ _, hgid ▸ fsHigh2lowid_lt _ _⟩
  · intro h k _
    have hself : putFields .big di (diFields ids (aufsInodeFill other di)) = di := by
      apply putFields_self
      intro f hf
      rw [h.words f hf, getWord_mod]
    rw [v2MinixUpdateInode_eq, hself]

/-- What `V2_minix_update_inode` writes has narrow words. -/
theorem update_narrow (h : inode.iMode < 2 ^ 16) :
    NarrowWords (v2MinixUpdateInode ids inode raw) where
  mode := by rwa [be32_update_mode h]
  uid := be32_update_uid ids inode raw ▸ fsHigh2lowid_lt _ _
  gid := be32_update_gid ids inode raw ▸ fsHigh2lowid_lt _ _

end

/-! ## The setters of mkfs -/

/-- A call of one of the setters of `Inode`. -/
inductive InodeSetter where
  | setFirstBlock (block : Nat)
  | clearAllOtherZones
  | setBlocksCount (count : Nat)
  | setSize (size : Nat)
  | setGid (gid : Nat)
  | setUid (uid : Nat)
  | setMode (mode : Nat)
  | setCreateTime (ctime : Nat)

def InodeSetter.run (off : Nat) (raw : Mem) : InodeSetter → Mem
  | .setFirstBlock block => Inode.setFirstBlock raw off block
  | .clearAllOtherZones => Inode.clearAllOtherZones raw off
  | .setBlocksCount count => Inode.setBlocksCount raw off count
  | .setSize size => Inode.setSize raw off size
  | .setGid gid => Inode.setGid raw off gid
  | .setUid uid => Inode.setUid raw off uid
  | .setMode mode => Inode.setMode raw off mode
  | .setCreateTime ctime => Inode.setCreateTime raw off ctime

/-- The slot at offset `off` of the block `raw` after some calls. -/
def slotAfter (raw : Mem) (off : Nat) (calls : List InodeSetter) : Mem :=
  fun k => calls.foldl (InodeSetter.run off) raw (off + k)

/-- A load gives back what was stored exactly when both ids have 16 bits. A slot that setters of
mkfs have written survives a load and a store exactly when they left 16 bits of mode and ids in it,
and a slot that the kernel has written always does. -/
theorem inode_codec_round_trip (ids : OverflowIds) (other : AufsInode) (raw : Mem) :
    (∀ inode : AufsInode, inode.Fits →
      (inode.SameOnDisk (aufsInodeFill other (v2MinixUpdateInode ids inode raw)) ↔
        inode.iUid < 2 ^ 16 ∧ inode.iGid < 2 ^ 16)) ∧
    (∀ off calls,
      KeepsSlot ids other (slotAfter raw off calls) ↔ NarrowWords (slotAfter raw off calls)) ∧
    ∀ inode : AufsInode, inode.iMode < 2 ^ 16 →
      KeepsSlot ids other (v2MinixUpdateInode ids inode raw) :=
  ⟨fun _ h => store_load_iff h, fun _ _ => load_store_iff,
    fun _ h => load_store_iff.mpr (update_narrow h)⟩

/-- An inode of user `uid`. -/
def inodeOf (uid : Nat) : AufsInode := { newInode fun _ => 0 with iUid := uid, iMode := S_IFDIR }

theorem inodeOf_fits {uid : Nat} (h : uid < 2 ^ 32) : (inodeOf uid).Fits where
  mode := show S_IFDIR < 2 ^ 16 by decide
  uid := h
  gid := show 0 < 2 ^ 32 by decide
  size := show 0 < 2 ^ 32 by decide
  blocks := show 0 < 2 ^ 32 by decide
  ctime := show 0 < 2 ^ 64 by decide
  zonePtr := fun _ => show 0 < 2 ^ 32 by decide

/-- User 1000. -/
theorem inode_codec_round_trip_user :
    (inodeOf 1000).SameOnDisk
        (aufsInodeFill (inodeOf 0) (v2MinixUpdateInode defaultIds (inodeOf 1000) fun _ => 0)) ∧
      KeepsSlot defaultIds (inodeOf 0)
        (v2MinixUpdateInode defaultIds (inodeOf 65536) fun _ => 0) := by
  obtain ⟨hstore, -, hload⟩ := inode_codec_round_trip defaultIds (inodeOf 0) fun _ => 0
  exact ⟨(hstore _ (inodeOf_fits (by decide))).mpr ⟨by decide, by decide⟩, hload _ (by decide)⟩

/-- User 65536 comes back as the overflow user, whoever stored the id. -/
theorem large_uid_lost :
    (inodeOf 65536).Fits ∧
      ¬(inodeOf 65536).SameOnDisk
        (aufsInodeFill (inodeOf 0) (v2MinixUpdateInode defaultIds (inodeOf 65536) fun _ => 0)) ∧
      ¬KeepsSlot defaultIds (inodeOf 0) (slotAfter (fun _ => 0) 0 [.setUid 65536]) := by
  refine ⟨inodeOf_fits (by decide), ?_, ?_⟩
  · rw [store_load_iff (inodeOf_fits (by decide))]
    exact fun h => absurd h.1 (by decide)
  · rw [load_store_iff]
    exact fun h => absurd h.uid (by decide)

end Aufs
