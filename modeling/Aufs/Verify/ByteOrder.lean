import Aufs.Verify.Readdir

/-! The byte order of directory entries. mkfs stores inode numbers big-endian, as their type says;
the kernel stores and reads them in the order of its host. `entry_format_iff` says when the two
programs agree on an entry: on a big-endian host, and elsewhere for the numbers whose bytes read
the same from both ends. -/

namespace Aufs
open Bytes Word

variable {order : ByteOrder} {dir : AufsInode} {content : Mem} {env : DirEnv} {name : List Byte}

/-! ## Entries of mkfs -/

/-- Entry `i` as `MkRootDir` encodes it: the number through `htonl`, the name with its NUL. -/
def mkfsEntry (content : Mem) (i ino : Nat) (name : List Byte) : Mem :=
  poke (putBe32 content (i * AUFS_DIR_SIZE + ddeInode) ino) (i * AUFS_DIR_SIZE + ddeName)
    (name ++ [0])

theorem mkfsDirEntry_eq (content : Mem) (i ino : Nat) (name : String) :
    mkfsDirEntry content i ino name = mkfsEntry content i ino (ascii name) := rfl

/-- What the kernel makes of it. -/
theorem slot_mkfsEntry (order : ByteOrder) (content : Mem) (i ino : Nat) (hname : ValidName name) :
    slot order (mkfsEntry content i ino name) i =
      (name, order.value (ByteOrder.big.bytes 4 ino)) := slot_storedEntry hname

/-- The number comes back if its bytes are those of the host's order. -/
theorem value_bytes_big (hino : ino < 2 ^ 32)
    (h : order = .big ∨ ByteOrder.little.bytes 4 ino = ByteOrder.big.bytes 4 ino) :
    order.value (ByteOrder.big.bytes 4 ino) = ino := by
  have hbytes : ByteOrder.big.bytes 4 ino = order.bytes 4 ino := by
    rcases h with rfl | h
    · rfl
    · cases order with
      | little => exact h.symm
      | big => rfl
  rw [hbytes, ByteOrder.value_bytes]
  exact Nat.mod_eq_of_lt hino

/-- Looking the name up in a directory that has it once. -/
theorem minixInodeByName_slot (wf : WellFormed order dir content)
    (hread : ∀ n, env.readMappingPage n = .ok ()) (hg : g < dir.iSize / AUFS_DIR_SIZE)
    (hname : ValidName name) (hslot : (slot order content g).1 = name)
    (honce : ∀ k < dir.iSize / AUFS_DIR_SIZE, (slot order content k).1 = name → k = g) :
    minixInodeByName order env dir content name = (slot order content g).2 := by
  rcases minixInodeByName_spec env wf hname with ⟨k, hk, hkname, heq⟩ | ⟨-, hnone | ⟨m, e, he⟩⟩
  · rw [heq, honce k hk hkname]
  · exact absurd hslot (hnone g hg)
  · rw [hread m] at he
    cases he

/-! ## Entries of the kernel -/

theorem minixAddLink_bytes (wf : WellFormed order dir content) (hname : ValidName name)
    (hret : (minixAddLink order sb env zmap dir content name ino).ret = some (.ok ())) :
    peek (minixAddLink order sb env zmap dir content name ino).content (dir.iSize + ddeInode) 4 =
      order.bytes 4 ino := by
  unfold minixAddLink at hret ⊢
  rcases minixAddLinkLoop_spec env wf hname (Nat.zero_add _) (Nat.zero_le _) with
    ⟨-, heq⟩ | ⟨-, heq⟩ | ⟨m, e, -, heq⟩
  · rw [heq] at hret
    cases hret
  · simp only [heq] at hret ⊢
    cases hmap : (minixPrepareChunk sb env zmap dir dir.iSize).ret with
    | error e => simp [hmap] at hret
    | ok b => exact peek_putWord_same
  · rw [heq] at hret
    cases hret

theorem minixMakeEmpty_bytes {inode : AufsInode}
    (hret : (minixMakeEmpty order sb env zmap inode content parent).ret = some (.ok ())) :
    peek (minixMakeEmpty order sb env zmap inode content parent).content ddeInode 4 =
      order.bytes 4 inode.iIno ∧
    peek (minixMakeEmpty order sb env zmap inode content parent).content
      (AUFS_DIR_SIZE + ddeInode) 4 = order.bytes 4 parent := by
  have hgrab := (minixMakeEmpty_ok hret).1
  cases hmap : (minixPrepareChunk sb env zmap inode 0).ret with
  | error e => simp [minixMakeEmpty, hgrab, hmap] at hret
  | ok b =>
    simp only [minixMakeEmpty, hgrab, hmap, emptyDirPage]
    constructor
    · rw [peek_poke_disjoint (.inl (by decide)), putWord, peek_poke_disjoint (.inl (by decide)),
        peek_poke_disjoint (.inl (by decide))]
      exact peek_putWord_same
    · rw [peek_poke_disjoint (.inl (by decide))]
      exact peek_putWord_same

/-! ## Agreement -/

/-- An entry of mkfs means the same to the kernel, and entries of the kernel are stored as mkfs
stores them, exactly when the host is big-endian or the numbers have the same bytes in both
orders. The entry of mkfs is slot `g` of a directory whose other slots have other names. -/
theorem entry_format_iff {g ino room : Nat} {added made : DirEnv} {sb : Sb} {zmap zmap' : MapBlocks}
    {parent inode : AufsInode} {parentContent pages : Mem} (hname : ValidName name)
    (hino : ino < 2 ^ 32) (wf : WellFormed order dir (mkfsEntry content g ino name))
    (hg : g < dir.iSize / AUFS_DIR_SIZE)
    (honce : ∀ k < dir.iSize / AUFS_DIR_SIZE,
      (slot order (mkfsEntry content g ino name) k).1 = name → k = g)
    (hread : ∀ n, env.readMappingPage n = .ok ()) (hroom : 1 ≤ room)
    (wfParent : WellFormed order parent parentContent)
    (hadd : (minixAddLink order sb added zmap parent parentContent name ino).ret = some (.ok ()))
    (hinode : inode.iIno = ino)
    (hmake : (minixMakeEmpty order sb made zmap' inode pages parent.iIno).ret = some (.ok ())) :
    (minixInodeByName order env dir (mkfsEntry content g ino name) name = ino ∧
      (minixReaddir order env dir (mkfsEntry content g ino name) (g * AUFS_DIR_SIZE)
        room).emitted.head? = some (name, ino) ∧
      peek (minixAddLink order sb added zmap parent parentContent name ino).content
        (parent.iSize + ddeInode) 4 = ByteOrder.big.bytes 4 ino ∧
      peek (minixMakeEmpty order sb made zmap' inode pages parent.iIno).content ddeInode 4 =
        ByteOrder.big.bytes 4 ino ∧
      peek (minixMakeEmpty order sb made zmap' inode pages parent.iIno).content
        (AUFS_DIR_SIZE + ddeInode) 4 = ByteOrder.big.bytes 4 parent.iIno) ↔
    order = .big ∨
      ByteOrder.little.bytes 4 ino = ByteOrder.big.bytes 4 ino ∧
      ByteOrder.little.bytes 4 parent.iIno = ByteOrder.big.bytes 4 parent.iIno := by
  obtain ⟨hdot, hdotdot⟩ := minixMakeEmpty_bytes hmake
  have hslot := slot_mkfsEntry order content g ino hname
  rw [minixAddLink_bytes wfParent hname hadd, hdot, hdotdot, hinode]
  constructor
  · rintro ⟨-, -, hadded, -, hparent⟩
    cases order with
    | big => exact .inl rfl
    | little => exact .inr ⟨hadded, hparent⟩
  · intro hcond
    have hvalue : order.value (ByteOrder.big.bytes 4 ino) = ino :=
      value_bytes_big hino (hcond.imp_right And.left)
    rw [hvalue] at hslot
    refine ⟨?_, ?_, ?_⟩
    · rw [minixInodeByName_slot wf hread hg hname (by rw [hslot]) honce, hslot]
    · have hcount : min room (dir.iSize / AUFS_DIR_SIZE - g) =
          min room (dir.iSize / AUFS_DIR_SIZE - g) - 1 + 1 := by omega
      rw [(minixReaddir_spec wf hread (Nat.le_of_lt hg) room).1, hcount, slots, List.range'_succ,
        List.map_cons, hslot]
      rfl
    · rcases hcond with rfl | ⟨hi, hp⟩
      · exact ⟨rfl, rfl, rfl⟩
      · cases order with
        | big => exact ⟨rfl, rfl, rfl⟩
        | little => exact ⟨hi, hi, hp⟩

/-- A directory of `n` entries. -/
def dirOfSize (ino n : Nat) : AufsInode :=
  { newInode (fun _ => 0) with iIno := ino, iSize := n * AUFS_DIR_SIZE }

/-- The first entry of the root directory, in a directory of its own. -/
theorem wellFormed_mkfsEntry (order : ByteOrder) :
    WellFormed order (dirOfSize 1 1) (mkfsEntry (fun _ => 0) 0 1 (ascii ".")) := by
  refine ⟨by decide, ?_⟩
  intro k hk
  obtain rfl : k = 0 := Nat.lt_one_iff.mp hk
  rw [slot_mkfsEntry order _ 0 1 validName_dot]
  exact rawOne_ne_zero order

theorem entry_format_big :
    ∃ sb, minixInodeByName .big quietEnv (dirOfSize 1 1)
        (mkfsEntry (fun _ => 0) 0 1 (ascii ".")) (ascii ".") = 1 ∧
      peek (minixAddLink .big sb quietEnv (fun _ _ => 0) (dirOfSize 1 0) (fun _ => 0) (ascii ".")
        1).content 0 4 = [0, 0, 0, 1] := by
  have H := accepted_of_parseArgs eightZones_parsed
  obtain ⟨image, himage, hf, R⟩ := exists_image H rootEnv (blankDevice (2 ^ 20))
  generalize aufsFillSb image.superBlock = sb at R
  have wfParent : WellFormed .big (dirOfSize 1 0) (fun _ => 0) := by
    refine ⟨by decide, ?_⟩
    intro k hk
    cases hk
  have hadd : (minixAddLink .big sb quietEnv (fun _ _ => 0) (dirOfSize 1 0) (fun _ => 0) (ascii ".")
      1).ret = some (.ok ()) := by
    rcases minixAddLink_cases R H wfParent validName_dot (show 1 < 2 ^ 32 by decide) (by decide)
      (show quietEnv.blockRead = .ok () from rfl) (fun _ _ => 0) with
      ⟨hmem, -⟩ | ⟨-, hret, -⟩ | ⟨m, e, he, -⟩
    · cases hmem
    · exact hret
    · cases he
  have hmake : (minixMakeEmpty .big sb quietEnv (fun _ _ => 0) (dirOfSize 1 0) (fun _ => 0)
      (dirOfSize 1 0).iIno).ret = some (.ok ()) :=
    (minixMakeEmpty_spec R H .big rfl rfl rfl (by decide) (by decide) _ _).1
  have hread : ∀ n, quietEnv.readMappingPage n = .ok () := fun _ => rfl
  obtain ⟨hlookup, -, hadded, -⟩ := (entry_format_iff validName_dot (by decide)
    (wellFormed_mkfsEntry .big) (by decide) (fun k hk _ => Nat.lt_one_iff.mp hk) hread
    (Nat.le_refl 1) wfParent hadd rfl hmake).mpr (.inl rfl)
  exact ⟨sb, hlookup, hadded⟩

/-- On a little-endian host the kernel takes the number 1 that mkfs wrote for 2^24. -/
theorem entry_read_swapped :
    minixInodeByName .little quietEnv (dirOfSize 1 1)
        (mkfsEntry (fun _ => 0) 0 1 (ascii ".")) (ascii ".") = 2 ^ 24 ∧
      minixInodeByName .little quietEnv (dirOfSize 1 1)
        (mkfsEntry (fun _ => 0) 0 1 (ascii ".")) (ascii ".") ≠ 1 := by
  have hslot := slot_mkfsEntry .little (fun _ => 0) 0 1 validName_dot
  rw [minixInodeByName_slot (wellFormed_mkfsEntry .little) (fun _ => rfl)
    (show 0 < (dirOfSize 1 1).iSize / AUFS_DIR_SIZE by decide) validName_dot (by rw [hslot])
    fun k hk _ => Nat.lt_one_iff.mp hk, hslot]
  decide

end Aufs
