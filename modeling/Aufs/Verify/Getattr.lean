import Aufs.Kern.Getattr
import Aufs.Verify.Remount

/-! `stat` over runs. Only writes and `minix_setattr` change the size of a file, as they say, and
what `minix_getattr` reports follows from the size alone. -/

namespace Aufs
open Bytes Word

variable {config : Configuration} {sb : Sb} {behind : Nat → Nat}

/-- The sizes of the files after one more step. -/
def recordSize (sizes : Nat → Option Nat) : DiskOp × DiskOut → Nat → Option Nat
  | (.page (.newInode ..), .page (.created (.ok ino))) => Function.update sizes ino (some 0)
  | (.page (.write ino pos _), .page (.written n)) =>
    if n = 0 then sizes
    else Function.update sizes ino ((sizes ino).map (max · (pos + n)))
  | (.page (.setattr ino _ attr), .page (.sized (.ok ()) ..)) =>
    Function.update sizes ino ((sizes ino).map attr.iaSize.getD)
  | _ => sizes

def FileSys.sizes (s : FileSys) (ino : Nat) : Option Nat := (s.files ino).map (·.iSize)

namespace FileSys

variable {s s' : FileSys}

/-- The size of one file changes. -/
theorem sizes_update {zmap imap : MapBlocks} {dev : Device} {inode : AufsInode} :
    sizes { zmap, imap, files := Function.update s.files ino (some inode), dev } =
      Function.update s.sizes ino (some inode.iSize) := by
  funext ino'
  simp only [sizes, Function.update_apply]
  split
  · rfl
  · rfl

theorem sizes_update_same {inode inode' : AufsInode} (hi : s.files ino = some inode)
    (hsize : inode'.iSize = inode.iSize) :
    Function.update s.sizes ino (some inode'.iSize) = s.sizes := by
  have heq : some inode'.iSize = s.sizes ino := by
    rw [sizes, hi, hsize]
    rfl
  rw [heq, Function.update_eq_self]

theorem sizes_writeEnd (s : FileSys) (ino pos n : Nat) :
    (s.writeEnd ino pos n).sizes =
      Function.update s.sizes ino ((s.sizes ino).map (max · (pos + n))) := by
  funext ino'
  simp only [sizes, writeEnd, Function.update_apply]
  split
  · rw [Option.map_map, Option.map_map]
    congr 1
    funext inode
    simp only [Function.comp_apply, genericWriteEnd]
    split
    · next hlt => exact (Nat.max_eq_right (Nat.le_of_lt hlt)).symm
    · next hle => exact (Nat.max_eq_left (Nat.le_of_not_lt hle)).symm
  · rfl

/-- Without a change of inodes the sizes stay. -/
theorem Edits.sizes (e : s.Edits sb behind (fun _ _ _ => False) s') : s'.sizes = s.sizes := by
  induction e with
  | refl => rfl
  | @getBlock ino iblock create _ _ s₁ _ h ih =>
    rw [← ih]
    obtain ⟨inode, hi, h⟩ := Option.bind_eq_some_iff.mp h
    obtain ⟨-, h⟩ := guard_bind_eq_some.mp h
    obtain ⟨-, h⟩ := guard_bind_eq_some.mp h
    cases h
    obtain ⟨ptr, heq⟩ := aufsGetBlock_inode sb s₁.zmap inode behind iblock sb.sBlocksize create
    rw [sizes_update]
    refine sizes_update_same hi ?_
    rw [heq]
  | inode _ _ hP => exact hP.elim
  | store _ _ ih => exact ih

end FileSys

open FileSys

/-! ## One step -/

theorem minixSetattr_iSize (prepared : Except Errno Unit) (inode : AufsInode) (attr : Iattr) :
    (minixSetattr prepared inode attr).2.iSize =
      match (minixSetattr prepared inode attr).1 with
      | .ok () => attr.iaSize.getD inode.iSize
      | .error _ => inode.iSize := by
  unfold minixSetattr
  cases prepared with
  | error e => rfl
  | ok u =>
    cases hset : setattrSize inode attr with
    | error e => rfl
    | ok inode' =>
      unfold setattrSize at hset
      cases hattr : attr.iaSize with
      | none =>
        rw [hattr] at hset
        cases hset
        rfl
      | some size =>
        simp only [hattr, inodeNewsizeOk] at hset
        split at hset
        · split at hset
          · cases hset
          · cases hset
            rfl
        · next heq =>
          cases hset
          exact (not_not.mp heq).symm

section
variable {s s' : PageCache} (M : Mounted config sb)
include M

theorem PageStep.sizes (S : s.Sound config sb) (hs : PageStep sb behind s op out s') :
    s'.fs.sizes = recordSize s.fs.sizes (.page op, .page out) := by
  cases hs with
  | @newInode task leftover dir mode ret fs h =>
    simp only [exec] at h
    cases hnew : aufsNewInode task sb s.fs.imap (some (Aufs.newInode leftover)) dir mode with
    | mk res imap =>
      rw [hnew] at h
      cases res with
      | error e =>
        cases h
        rfl
      | ok inode =>
        cases h
        obtain ⟨_, j, ⟨⟩, -, -, -, -, rfl⟩ := aufsNewInode_ok M.reads.inodeMapBlocks hnew
        rw [sizes_update, initInode_iSize]
        rfl
  | @write ino pos chunk n _ hpos _ hstep =>
    obtain ⟨⟨buf, s₁⟩, hbegin, h⟩ := Option.bind_eq_some_iff.mp hstep
    have e : s.fs.Edits sb behind (fun _ _ _ => False) s₁.fs :=
      PageCache.minixWriteBegin_edits hbegin
    cases buf with
    | none =>
      cases h
      exact e.sizes
    | some =>
      cases h
      have hne : chunk.length ≠ 0 := Nat.pos_iff_ne_zero.mp hpos
      simp only [recordSize, if_neg hne]
      rw [← e.sizes]
      exact sizes_writeEnd ..
  | read _ hstep => exact (PageCache.read_edits hstep).sizes
  | readpage hstep => exact (PageCache.readpage_edits hstep).sizes
  | writepage hstep => exact (PageCache.writepage_edits M S hstep).sizes
  | evict hstep =>
    rw [PageCache.evict_fs hstep]
    rfl
  | @setattr ino prepared attr ret old new _ hstep =>
    obtain ⟨inode, hi, h⟩ := Option.bind_eq_some_iff.mp hstep
    have hsize := minixSetattr_iSize prepared inode attr
    simp only [Option.pure_def, Option.some.injEq, Prod.mk.injEq] at h
    generalize minixSetattr prepared inode attr = r at h hsize
    obtain ⟨rfl, -, -, rfl⟩ := h
    have hsizes : (s.fs.setInode ino r.2).sizes = recordSize s.fs.sizes
        (.page (.setattr ino prepared attr), .page (.sized r.1 old new)) := by
      have hold : s.fs.sizes ino = some inode.iSize := by
        rw [FileSys.sizes, hi]
        rfl
      rw [setInode, sizes_update, hsize]
      cases r.1 with
      | error e =>
        rw [← hold]
        exact Function.update_eq_self ..
      | ok u =>
        simp only [recordSize]
        rw [hold]
        rfl
    split
    · exact hsizes
    · exact hsizes

end

section
variable {image : Image} {menv : MkfsEnv} {s s' : PageCache} (M : Mounted config sb)
  (hf : image.Formatted config menv)
  (hplaced : 4096 ≤ config.zoneSize ∨ config.numZones ≤ config.blockSize / sizeofInode)
include M hf hplaced

theorem DiskStep.sizes (hsb : sb = aufsFillSb image.superBlock) (O : s.OnDisk config sb image)
    (hs : DiskStep sb behind s op out s') : s'.fs.sizes = recordSize s.fs.sizes (op, out) := by
  cases hs with
  | page _ hstep => exact hstep.sizes M O.sound
  | writeInode hi _ => exact sizes_update.trans (sizes_update_same hi rfl)
  | writeZmap => rfl
  | writeImap => rfl
  | @remount env leftover fs Y hblock hmount =>
    have r := (O.reread M hf hplaced Y hsb hblock hmount leftover).2
    funext ino
    change (s.remounted leftover fs).fs.sizes ino = s.fs.sizes ino
    cases hi : s.fs.files ino with
    | none =>
      cases hi' : (s.remounted leftover fs).fs.files ino with
      | none => rw [FileSys.sizes, FileSys.sizes, hi, hi']
      | some inode' =>
        obtain ⟨inode, hi₁, -⟩ := r.back ino inode' hi'
        cases hi.symm.trans hi₁
    | some inode =>
      obtain ⟨inode', hi', hsame⟩ := r.files ino inode hi
      rw [FileSys.sizes, FileSys.sizes, hi, hi', Option.map_some, Option.map_some, hsame.size]

end

end Aufs
