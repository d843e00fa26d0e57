import Aufs.Kern.MapBits
import Aufs.Verify.Allocators

/-! The three sets of bit operations of `kern/minix.h`. Each does on a map what the little-endian
one does on the map with the bytes of its words or units reversed. So the allocators hand out the
same indices in every configuration, and none twice; but the maps of mkfs, which are little-endian,
mean the same only to a kernel that reads them so. -/

namespace Aufs
open Bytes Word

/-! ## Sixteen bits at a time -/

/-- A unit of 16 bits is full, or `ffz` finds its first clear bit. -/
theorem ffz_cases (h : num < 2 ^ 16) :
    (num = 0xffff ∧ ∀ k < 16, num.testBit k = true) ∨
    num ≠ 0xffff ∧ ffz num < 16 ∧ num.testBit (ffz num) = false ∧
      ∀ k < ffz num, num.testBit k = true := by
  by_cases hall : ∀ k < 16, num.testBit k = true
  · refine .inl ⟨Nat.eq_of_testBit_eq fun k => ?_, hall⟩
    rw [show (0xffff : Nat) = 2 ^ 16 - 1 from rfl, Nat.testBit_two_pow_sub_one]
    by_cases hk : k < 16
    · rw [hall k hk, decide_eq_true hk]
    · have hle : 2 ^ 16 ≤ 2 ^ k := Nat.pow_le_pow_right Nat.two_pos (Nat.le_of_not_lt hk)
      rw [decide_eq_false hk, Nat.testBit_lt_two_pow (Nat.lt_of_lt_of_le h hle)]
  · refine .inr ⟨fun hfull => hall fun k hk => ?_, ?_⟩
    · rw [hfull, show (0xffff : Nat) = 2 ^ 16 - 1 from rfl, Nat.testBit_two_pow_sub_one,
        decide_eq_true hk]
    · obtain ⟨k, hk, hclear⟩ : ∃ k < 16, num.testBit k = false := by
        by_contra hne
        refine hall fun k hk => Bool.eq_true_of_not_eq_false fun hclear => hne ⟨k, hk, hclear⟩
      have hlow : ∀ k < ffz num, num.testBit k = true := by
        intro k hk
        have h := List.not_of_lt_findIdx hk
        simpa using h
      have hle : ffz num ≤ k := by
        by_contra hgt
        rw [hlow k (Nat.lt_of_not_le hgt)] at hclear
        cases hclear
      have hlt : ffz num < (List.range 64).length := by
        rw [List.length_range]
        omega
      have hfound := List.findIdx_getElem (w := hlt)
      change (!num.testBit ((List.range 64)[ffz num])) = true at hfound
      rw [List.getElem_range, Bool.not_eq_true'] at hfound
      exact ⟨by omega, hfound, hlow⟩

/-- The 16-bit search on a big-endian host. -/
theorem minixFindLoop16_eq (m : Mem) (n p : Nat) :
    minixFindLoop16 .big m n p = findBit (swapBytes 2 m) false (16 * p) (16 * n) := by
  have hshift : ∀ p : Nat, p <<< 4 = 16 * p := fun p => by
    rw [Nat.shiftLeft_eq, Nat.mul_comm]
  have hbits : ∀ p, ∀ k < 16,
      bit (swapBytes 2 m) (16 * p + k) = (getWord .big m (2 * p) 2).testBit k := by
    intro p k hk
    have hgroup : swapBytes 2 m = swapBytes (ByteOrder.big.group 2) m := rfl
    have hword : (16 * p + k) / (8 * 2) * 2 = 2 * p := by omega
    have hbit : (16 * p + k) % (8 * 2) = k := by omega
    rw [hgroup, ← wordBit_eq Nat.two_pos, wordBit, hword, hbit]
  induction n generalizing p with
  | zero => exact hshift p
  | succ n ih =>
    have hunit : 16 * (n + 1) = 16 + 16 * n := by omega
    rw [minixFindLoop16]
    rcases ffz_cases (getWord_lt .big m (2 * p) 2) with ⟨hfull, hset⟩ | ⟨hne, hlt, hclear, hlow⟩
    · rw [hunit, findBit_skip fun i h₁ h₂ => ?_]
      · simp only [if_pos hfull, ih (p + 1)]
        rw [Nat.mul_add]
      · rw [show i = 16 * p + (i - 16 * p) by omega, hbits p _ (by omega), hset _ (by omega)]
        exact fun h => Bool.false_ne_true h.symm
    · simp only [if_neg hne, hshift]
      refine (findBit_eq (Nat.le_add_right ..) (by omega) ?_ fun k h₁ h₂ => ?_).symm
      · rw [hbits p _ hlt, hclear]
      · rw [show k = 16 * p + (k - 16 * p) by omega, hbits p _ (by omega), hlow _ (by omega)]
        exact fun h => Bool.false_ne_true h.symm


/-- The 16-bit operations number their bits across the halves of a 32-bit word. -/
theorem wordBit_xor (m : Mem) (nr : Nat) :
    wordBit .big 4 m (nr ^^^ 16) = bit (swapBytes 2 m) nr := by
  have hdiv : (nr ^^^ 16) / 32 = nr / 32 := by
    have h : (nr ^^^ 16) / 2 ^ 5 = nr / 2 ^ 5 ^^^ 16 / 2 ^ 5 := Nat.xor_div_two_pow
    rwa [show 16 / 2 ^ 5 = 0 from rfl, Nat.xor_zero] at h
  have hmod : (nr ^^^ 16) % 32 = (nr % 32 + 16) % 32 := by
    have h : (nr ^^^ 16) % 2 ^ 5 = nr % 2 ^ 5 ^^^ 16 % 2 ^ 5 := Nat.xor_mod_two_pow
    have hsmall : ∀ r < 32, r ^^^ 16 = (r + 16) % 32 := by decide
    exact h.trans (hsmall _ (Nat.mod_lt _ (by decide)))
  rw [wordBit_eq (by decide)]
  generalize nr ^^^ 16 = x at hdiv hmod
  have hbyte : x / 8 / 4 * 4 + (4 - 1 - x / 8 % 4) = nr / 8 / 2 * 2 + (2 - 1 - nr / 8 % 2) := by
    omega
  have hbit : x % 8 = nr % 8 := by omega
  change (m (x / 8 / 4 * 4 + (4 - 1 - x / 8 % 4))).getLsbD (x % 8) = _
  rw [hbyte, hbit]
  rfl

theorem swapBytes_setWordBit_xor (m : Mem) (nr : Nat) :
    swapBytes 2 (setWordBit .big 4 m (nr ^^^ 16)) = setBit (swapBytes 2 m) nr true := by
  refine ext_bit fun j => ?_
  have hinj : j ^^^ 16 = nr ^^^ 16 ↔ j = nr := Nat.xor_left_inj
  rw [← wordBit_xor, wordBit_setWordBit (by decide), bit_setBit, wordBit_xor]
  simp only [hinj]

/-! ## What each set does -/

/-- On maps of `bits` bits the operations are the little-endian ones on the map with each group of
`g` bytes reversed. -/
structure MapOps.Views (ops : MapOps) (g bits : Nat) : Prop where
  find : ∀ m, ops.findFirstZeroBit m bits = minixFindFirstZeroBit (swapBytes g m) bits
  set : ∀ nr m, swapBytes g (ops.setBit nr m) = minixSetBit nr (swapBytes g m)
  old : ∀ nr m, (ops.testAndSetBit nr m).1 = bit (swapBytes g m) nr
  testAndSet : ∀ nr m, swapBytes g (ops.testAndSetBit nr m).2 = minixSetBit nr (swapBytes g m)
  test : ∀ nr m, ops.testBit nr m = bit (swapBytes g m) nr

namespace MinixConfig

/-- How many bytes a configuration reads in reversed order. -/
def group (host : Host) : MinixConfig → Nat
  | nativeEndian => host.order.group host.long
  | bigEndian16BitIndexed => 2
  | littleEndian => 1

/-- Words have 32 or 64 bits; the 16-bit set is for big-endian hosts with words of 32. -/
structure Fits (c : MinixConfig) (host : Host) : Prop where
  long : host.long = 4 ∨ host.long = 8
  units : c = .bigEndian16BitIndexed → host.order = .big ∧ host.long = 4

theorem views {c : MinixConfig} {host : Host} (F : c.Fits host) (h16 : 16 ∣ bits) (h0 : 0 < bits) :
    (c.ops host).Views (c.group host) bits := by
  have hlong : 0 < host.long := by
    have := F.long
    omega
  cases c with
  | nativeEndian =>
    exact ⟨fun m => findZeroBit_eq hlong, fun nr m => swapBytes_setWordBit hlong,
      fun nr m => wordBit_eq hlong, fun nr m => swapBytes_setWordBit hlong,
      fun nr m => wordBit_eq hlong⟩
  | bigEndian16BitIndexed =>
    obtain ⟨order, long⟩ := host
    obtain ⟨rfl, rfl⟩ := F.units rfl
    refine ⟨fun m => ?_, fun nr m => swapBytes_setWordBit_xor m nr, fun nr m => wordBit_xor m nr,
      fun nr m => swapBytes_setWordBit_xor m nr, fun nr m => ?_⟩
    · have hshift : bits >>> 4 = bits / 16 := Nat.shiftRight_eq_div_pow ..
      have hne : bits >>> 4 ≠ 0 := by omega
      have hbits : 16 * (bits / 16) = bits := Nat.mul_div_cancel' h16
      simp only [ops, if_neg (Nat.ne_of_gt h0), if_neg hne]
      rw [minixFindLoop16_eq, hshift, hbits]
      rfl
    · have hshift : nr >>> 4 = nr / 16 := Nat.shiftRight_eq_div_pow ..
      have hand : nr &&& 15 = nr % 16 := Nat.and_two_pow_sub_one_eq_mod nr 4
      simp only [ops, hshift, hand, Nat.mul_comm 2]
      exact wordBit_eq Nat.two_pos
  | littleEndian =>
    simp only [group]
    have hset : ∀ nr m, swapBytes 1 (minixSetBit nr m) = minixSetBit nr (swapBytes 1 m) := by
      intro nr m
      rw [swapBytes_one, swapBytes_one]
    have hbit : ∀ nr m, bit m nr = bit (swapBytes 1 m) nr := by
      intro nr m
      rw [swapBytes_one]
    refine ⟨fun m => ?_, hset, hbit, hset, hbit⟩
    rw [swapBytes_one]
    rfl

end MinixConfig

/-! ## The allocators in any configuration -/

/-- What `aufs_new_zone` does about map block `i`. -/
def MapOps.aufsNewZoneSection (ops : MapOps) (sb : Sb) (i : Nat) (zmap : MapBlocks) :
    ZoneSection × MapBlocks :=
  let bitsPerBlock := 8 * sb.sBlocksize
  let j := ops.findFirstZeroBit (zmap i) bitsPerBlock
  if j < bitsPerBlock then
    let zmap := Function.update zmap i (ops.setBit j (zmap i))
    let j := i32 (j + i * bitsPerBlock)
    if j < 0 then (.returned 0, zmap)
    else if sb.sbi.asbAlignmentNumBlocks = 0 then (.oops, zmap)
    else (.returned (sb.sbi.zoneBlock j.toNat), zmap)
  else (.next, zmap)

/-- One critical section of some call. -/
inductive MapOps.Step (ops : MapOps) (sb : Sb) : Alloc → AllocOp → AllocOut → Alloc → Prop
  | begin {s t} : s.zoneCalls t = none →
    Step ops sb s (.beginZone t) .running
      { s with zoneCalls := Function.update s.zoneCalls t (some 0) }
  | next {s t i zmap} : s.zoneCalls t = some i → i < sb.sbi.asbZoneMapBlocks →
    ops.aufsNewZoneSection sb i s.zmap = (.next, zmap) →
    Step ops sb s (.zoneSection t) .running
      { s with zmap, zoneCalls := Function.update s.zoneCalls t (some (i + 1)) }
  | returned {s t i ret zmap} : s.zoneCalls t = some i → i < sb.sbi.asbZoneMapBlocks →
    ops.aufsNewZoneSection sb i s.zmap = (.returned ret, zmap) →
    Step ops sb s (.zoneSection t) (.zone ret)
      { s with zmap, zoneCalls := Function.update s.zoneCalls t none }
  | oops {s t i zmap} : s.zoneCalls t = some i → i < sb.sbi.asbZoneMapBlocks →
    ops.aufsNewZoneSection sb i s.zmap = (.oops, zmap) →
    Step ops sb s (.zoneSection t) .oops
      { s with zmap, zoneCalls := Function.update s.zoneCalls t none }
  | full {s t i} : s.zoneCalls t = some i → sb.sbi.asbZoneMapBlocks ≤ i →
    Step ops sb s (.zoneSection t) (.zone 0)
      { s with zoneCalls := Function.update s.zoneCalls t none }
  | newInode {s task new dir mode ret imap} :
    ops.aufsNewInode task sb s.imap new dir mode = (ret, imap) →
    Step ops sb s (.newInode task new dir mode) (.inode ret) { s with imap }

/-- A map with the bytes reversed in groups of `g`. -/
def viewMap (g : Nat) (map : MapBlocks) : MapBlocks := fun i => swapBytes g (map i)

theorem viewMap_update (g i : Nat) (map : MapBlocks) (m : Mem) :
    viewMap g (Function.update map i m) = Function.update (viewMap g map) i (swapBytes g m) := by
  funext k
  by_cases hk : k = i
  · rw [hk, viewMap, Function.update_self, Function.update_self]
  · rw [viewMap, Function.update_of_ne hk, Function.update_of_ne hk]
    rfl

def Alloc.view (g : Nat) (s : Alloc) : Alloc :=
  { s with zmap := viewMap g s.zmap, imap := viewMap g s.imap }

/-- Setting a bit that is set. -/
theorem minixSetBit_of_set (h : bit m nr = true) : minixSetBit nr m = m := by
  refine ext_bit fun j => ?_
  rw [minixSetBit, bit_setBit]
  split
  · next heq => rw [heq, h]
  · rfl

namespace MapOps.Views

variable {ops : MapOps} {g : Nat} {sb : Sb}

theorem newZoneSection (V : ops.Views g (8 * sb.sBlocksize)) (i : Nat) (zmap : MapBlocks) :
    Aufs.aufsNewZoneSection sb i (viewMap g zmap) =
      ((ops.aufsNewZoneSection sb i zmap).1,
        viewMap g (ops.aufsNewZoneSection sb i zmap).2) := by
  unfold Aufs.aufsNewZoneSection MapOps.aufsNewZoneSection
  have hfind : minixFindFirstZeroBit (viewMap g zmap i) (8 * sb.sBlocksize) =
      ops.findFirstZeroBit (zmap i) (8 * sb.sBlocksize) := (V.find (zmap i)).symm
  simp only [hfind]
  generalize ops.findFirstZeroBit (zmap i) (8 * sb.sBlocksize) = j
  have hset : viewMap g (Function.update zmap i (ops.setBit j (zmap i))) =
      Function.update (viewMap g zmap) i (minixSetBit j (viewMap g zmap i)) := by
    rw [viewMap_update, V.set]
    rfl
  split
  · split
    · rw [hset]
    · split
      · rw [hset]
      · rw [hset]
  · rfl

theorem newInodeSearch (V : ops.Views g bits) (n i : Nat) (imap : MapBlocks) :
    Aufs.aufsNewInodeSearch bits n i (viewMap g imap) = ops.aufsNewInodeSearch bits n i imap := by
  induction n generalizing i with
  | zero => rfl
  | succ n ih =>
    have hfind : minixFindFirstZeroBit (viewMap g imap i) bits =
        ops.findFirstZeroBit (imap i) bits := (V.find (imap i)).symm
    rw [Aufs.aufsNewInodeSearch, MapOps.aufsNewInodeSearch, hfind, ih]

theorem newInode (V : ops.Views g (8 * sb.sBlocksize)) (task : Task) (imap : MapBlocks)
    (new : Option AufsInode) (dir : AufsInode) (mode : Nat) :
    Aufs.aufsNewInode task sb (viewMap g imap) new dir mode =
      ((ops.aufsNewInode task sb imap new dir mode).1,
        viewMap g (ops.aufsNewInode task sb imap new dir mode).2) := by
  unfold Aufs.aufsNewInode MapOps.aufsNewInode
  cases new with
  | none => rfl
  | some inode =>
    simp only [V.newInodeSearch]
    cases ops.aufsNewInodeSearch (8 * sb.sBlocksize) sb.sbi.asbInodeMapBlocks 0 imap with
    | none => rfl
    | some found =>
      obtain ⟨i, j⟩ := found
      have hold : bit (viewMap g imap i) j = (ops.testAndSetBit j (imap i)).1 :=
        (V.old j (imap i)).symm
      have hset : viewMap g (Function.update imap i (ops.testAndSetBit j (imap i)).2) =
          Function.update (viewMap g imap) i (minixSetBit j (viewMap g imap i)) := by
        rw [viewMap_update, V.testAndSet]
        rfl
      simp only [hold]
      split
      · next h =>
        rw [h] at hold
        rw [hset, minixSetBit_of_set hold, Function.update_eq_self]
      · split
        · rw [hset]
        · rw [hset]

theorem newZone (V : ops.Views g (8 * sb.sBlocksize)) (zmap : MapBlocks) :
    Aufs.aufsNewZone sb (viewMap g zmap) =
      ((ops.aufsNewZone sb zmap).1, viewMap g (ops.aufsNewZone sb zmap).2) := by
  unfold Aufs.aufsNewZone MapOps.aufsNewZone
  generalize sb.sbi.asbZoneMapBlocks = n
  generalize 0 = i
  induction n generalizing i with
  | zero => rfl
  | succ n ih =>
    rw [Aufs.aufsNewZoneLoop, MapOps.aufsNewZoneLoop]
    have hfind : minixFindFirstZeroBit (viewMap g zmap i) (8 * sb.sBlocksize) =
        ops.findFirstZeroBit (zmap i) (8 * sb.sBlocksize) := (V.find (zmap i)).symm
    simp only [hfind]
    generalize ops.findFirstZeroBit (zmap i) (8 * sb.sBlocksize) = j
    have hset : viewMap g (Function.update zmap i (ops.setBit j (zmap i))) =
        Function.update (viewMap g zmap) i (minixSetBit j (viewMap g zmap i)) := by
      rw [viewMap_update, V.set]
      rfl
    split
    · split
      · rw [hset]
      · rw [hset]
    · exact ih (i + 1)

/-- A critical section is one of the little-endian kernel on the reversed maps. -/
theorem step {s s' : Alloc} (V : ops.Views g (8 * sb.sBlocksize)) (hs : ops.Step sb s op out s') :
    AllocStep sb (s.view g) op out (s'.view g) := by
  cases hs with
  | begin hcall => exact .begin hcall
  | @next t i zmap hcall hlt hsec =>
    have h := V.newZoneSection i s.zmap
    rw [hsec] at h
    exact .next hcall hlt h
  | @returned t i ret zmap hcall hlt hsec =>
    have h := V.newZoneSection i s.zmap
    rw [hsec] at h
    exact .returned hcall hlt h
  | @oops t i zmap hcall hlt hsec =>
    have h := V.newZoneSection i s.zmap
    rw [hsec] at h
    exact .oops hcall hlt h
  | full hcall hle => exact .full hcall hle
  | @newInode task new dir mode ret imap hret =>
    have h := V.newInode task s.imap new dir mode
    rw [hret] at h
    exact .newInode h

end MapOps.Views

/-- Bit `k` of a map of several blocks, as a configuration tests it. -/
def MapOps.rowBit (ops : MapOps) (bits : Nat) (map : MapBlocks) (k : Nat) : Bool :=
  ops.testBit (k % bits) (map (k / bits))

theorem MapOps.Views.rowBit {ops : MapOps} (V : ops.Views g bits) (map : MapBlocks) (k : Nat) :
    ops.rowBit bits map k = Bytes.rowBit bits (viewMap g map) k := V.test _ _

/-- The configurations that read a map byte by byte, as mkfs writes it. -/
def MinixConfig.ReadsBytes (c : MinixConfig) (host : Host) : Prop :=
  c = .littleEndian ∨ c = .nativeEndian ∧ host.order = .little

namespace MinixConfig

variable {c : MinixConfig} {host : Host}

theorem group_cases (C : c.Fits host) :
    c.ReadsBytes host ∧ c.group host = 1 ∨
      ¬c.ReadsBytes host ∧ 2 ≤ c.group host ∧ c.group host ≤ 8 := by
  have hlong := C.long
  obtain ⟨order, long⟩ := host
  cases c with
  | littleEndian => exact .inl ⟨.inl rfl, rfl⟩
  | nativeEndian =>
    cases order with
    | little => exact .inl ⟨.inr ⟨rfl, rfl⟩, rfl⟩
    | big =>
      refine .inr ⟨?_, ?_⟩
      · rintro (h | ⟨-, h⟩)
        · cases h
        · cases h
      · change 2 ≤ long ∧ long ≤ 8
        have : long = 4 ∨ long = 8 := hlong
        omega
  | bigEndian16BitIndexed =>
    have hg : 2 ≤ 8 := by decide
    refine .inr ⟨?_, Nat.le_refl 2, hg⟩
    rintro (h | ⟨h, -⟩)
    · cases h
    · cases h

end MinixConfig

/-- The first byte of a map, read with the bytes of its group reversed. -/
theorem bit_swapBytes_first {m : Mem} (hr : r < 8) :
    bit (swapBytes g m) r = bit m (8 * (g - 1) + r) := by
  have hdiv : r / 8 = 0 := Nat.div_eq_of_lt hr
  have hdiv' : (8 * (g - 1) + r) / 8 = g - 1 := by omega
  have hmod : (8 * (g - 1) + r) % 8 = r % 8 := by omega
  rw [bit, bit, swapBytes, hdiv, hdiv', hmod, Nat.zero_div, Nat.zero_mul, Nat.zero_mod,
    Nat.sub_zero, Nat.zero_add]

/-- A map whose clear bits are those from 2 to `n`, after a mount. -/
theorem reads_iff {c : MinixConfig} {host : Host} (C : c.Fits host) {m : Mem} {bits n : Nat}
    (h16 : 16 ∣ bits) (h64 : 64 ≤ bits) (h2 : 2 < n)
    (hm : ∀ j < bits, bit m j = false ↔ 2 ≤ j ∧ j < n) :
    (∀ j < bits, (c.ops host).testBit j ((c.ops host).setBit 0 m) = false ↔ 2 ≤ j ∧ j < n) ↔
      c.ReadsBytes host := by
  have V := MinixConfig.views C h16 (by omega : 0 < bits)
  have hbit : ∀ j, (c.ops host).testBit j ((c.ops host).setBit 0 m) =
      if j = 0 then true else bit (swapBytes (c.group host) m) j := by
    intro j
    rw [V.test, V.set, minixSetBit, bit_setBit]
  rcases MinixConfig.group_cases C with ⟨hreads, hg⟩ | ⟨hreads, hg2, hg8⟩
  · simp only [hreads, iff_true, hbit, hg, swapBytes_one]
    intro j hj
    split
    · next h0 =>
      simp only [Bool.true_eq_false, false_iff]
      omega
    · exact hm j hj
  · simp only [hreads, iff_false]
    intro h
    -- bit 2 of the map lies behind bit 1, and both are read from the same byte
    have hclear := (h 2 (by omega)).mpr ⟨Nat.le_refl 2, h2⟩
    rw [hbit, if_neg (by decide), bit_swapBytes_first (by decide), hm _ (by omega)] at hclear
    have hone : (c.ops host).testBit 1 ((c.ops host).setBit 0 m) = false := by
      rw [hbit, if_neg (by decide), bit_swapBytes_first (by decide), hm _ (by omega)]
      omega
    have := (h 1 (by omega)).mp hone
    omega

/-- Read with reversed bytes, such a map has bit 1 free first. -/
theorem firstZero_reversed {c : MinixConfig} {host : Host} (C : c.Fits host) {m : Mem}
    {bits n : Nat} (h16 : 16 ∣ bits) (h64 : 64 ≤ bits)
    (hm : ∀ j < bits, bit m j = false ↔ 2 ≤ j ∧ j < n) (hreads : ¬c.ReadsBytes host)
    (hn : 8 * (c.group host - 1) + 1 < n) :
    minixFindFirstZeroBit (swapBytes (c.group host) ((c.ops host).setBit 0 m)) bits = 1 := by
  have V := MinixConfig.views C h16 (by omega : 0 < bits)
  rcases MinixConfig.group_cases C with ⟨h, -⟩ | ⟨-, hg2, hg8⟩
  · exact absurd h hreads
  · rw [V.set]
    refine minixFindFirstZeroBit_eq (by omega) ?_ fun k hk => ?_
    · rw [minixSetBit, bit_setBit, if_neg (by decide), bit_swapBytes_first (by decide),
        hm _ (by omega)]
      omega
    · obtain rfl : k = 0 := by omega
      rw [minixSetBit, bit_setBit, if_pos rfl]

/-- The maps that mkfs writes mean to a kernel, once it is mounted, what they mean to mkfs exactly
if it reads them byte by byte. Elsewhere, with enough zones and inodes, the first zone that
`aufs_new_zone` hands out is zone 1, which the root directory has, and the first inode number is 1,
that of the root. -/
theorem mkfs_maps_config_iff {config : Configuration} {c : MinixConfig} {host : Host}
    {deviceSize : String → Nat} {argv : List String} {env : MkfsEnv} {fuel : Nat} {dev : Device}
    {image : Image} {sb : Sb} (hargs : parseArgs deviceSize argv = .ok config)
    (himage : mkfs env fuel config dev = some image)
    (hsb : sb = aufsFillSb image.superBlock) (C : c.Fits host) :
    ((∀ j < 8 * sb.sBlocksize,
      (c.ops host).testBit j ((c.ops host).setBit 0 image.zoneMap) = false ↔
        2 ≤ j ∧ j < config.numZones) ↔ c.ReadsBytes host) ∧
    ((∀ j < 8 * sb.sBlocksize,
      (c.ops host).testBit j ((c.ops host).setBit 0 image.inodeMap) = false ↔
        2 ≤ j ∧ j < SuperBlock.numInodes config) ↔ c.ReadsBytes host) ∧
    (¬c.ReadsBytes host →
      (8 * (c.group host - 1) + 1 < config.numZones →
        ((c.ops host).aufsNewZone sb fun _ => (c.ops host).setBit 0 image.zoneMap).1 =
          sb.sbi.zoneBlock 1) ∧
      (8 * (c.group host - 1) + 1 < SuperBlock.numInodes config →
        ∀ task new dir mode, ∃ inode,
          ((c.ops host).aufsNewInode task sb (fun _ => (c.ops host).setBit 0 image.inodeMap)
            (some new) dir mode).1 = .ok inode ∧ inode.iIno = sb.sbi.asbRootInode)) := by
  have H := accepted_of_parseArgs hargs
  have hf := mkfs_formatted H himage
  have R : sb.Reads config := hsb ▸ aufsFillSb_reads H hf
  have hbs := H.blockSize_cases
  have hsize := R.blocksize
  have h16 : 16 ∣ 8 * sb.sBlocksize := by omega
  have h64 : 64 ≤ 8 * sb.sBlocksize := by omega
  have hz : ∀ j < 8 * sb.sBlocksize,
      bit image.zoneMap j = false ↔ 2 ≤ j ∧ j < config.numZones :=
    fun j hj => hf.zoneMap j (by omega)
  have hi : ∀ j < 8 * sb.sBlocksize,
      bit image.inodeMap j = false ↔ 2 ≤ j ∧ j < SuperBlock.numInodes config :=
    fun j hj => hf.inodeMap j (by omega)
  have hn := H.three_lt
  have hni := H.four_le_numInodes
  have V := MinixConfig.views C h16 (by omega : 0 < 8 * sb.sBlocksize)
  refine ⟨reads_iff C h16 h64 (by omega) hz, reads_iff C h16 h64 (by omega) hi, fun hreads =>
    ⟨fun hlt => ?_, fun hlt task new dir mode => ?_⟩⟩
  · have hfirst := firstZero_reversed C h16 h64 hz hreads hlt
    have heq := V.newZone fun _ => (c.ops host).setBit 0 image.zoneMap
    rw [aufsNewZone_eq R.zoneMapBlocks (R.bits_lt H)] at heq
    simp only [viewMap, hfirst, if_pos (by omega : 1 < 8 * sb.sBlocksize), Prod.mk.injEq] at heq
    exact heq.1.symm
  · have hfirst := firstZero_reversed C h16 h64 hi hreads hlt
    have heq := V.newInode task (fun _ => (c.ops host).setBit 0 image.inodeMap) (some new) dir mode
    have hone : 1 < 8 * sb.sBlocksize := by omega
    rcases aufsNewInode_cases R.inodeMapBlocks task
      (viewMap (c.group host) fun _ => (c.ops host).setBit 0 image.inodeMap) new dir mode with
      ⟨hfull, -⟩ | ⟨j, hj, hclear, hlow, hret⟩
    · have hclear := minixFindFirstZeroBit_lt (by rw [hfirst]; exact hone)
      rw [hfirst] at hclear
      cases (hfull 1 hone).symm.trans hclear
    · obtain rfl : j = 1 := (minixFindFirstZeroBit_eq hj hclear hlow).symm.trans hfirst
      rw [hret] at heq
      simp only [if_neg Nat.one_ne_zero, Prod.mk.injEq] at heq
      refine ⟨_, heq.1.symm, ?_⟩
      rw [R.rootInode]
      rfl

/-- On a big-endian host with words of 64 bits. -/
theorem mkfs_maps_config_eightZones :
    ∃ image, mkfs rootEnv 1 eightZones (blankDevice (2 ^ 20)) = some image ∧
      ¬∀ j < 8 * (aufsFillSb image.superBlock).sBlocksize,
        (MinixConfig.nativeEndian.ops ⟨.big, 8⟩).testBit j
          ((MinixConfig.nativeEndian.ops ⟨.big, 8⟩).setBit 0 image.zoneMap) = false ↔
            2 ≤ j ∧ j < 8 := by
  have H := accepted_of_parseArgs eightZones_parsed
  obtain ⟨image, himage, -, -⟩ := exists_image H rootEnv (blankDevice (2 ^ 20))
  have C : MinixConfig.nativeEndian.Fits ⟨.big, 8⟩ := ⟨.inr rfl, fun h => by cases h⟩
  have hiff := (mkfs_maps_config_iff eightZones_parsed himage rfl C).1
  refine ⟨image, himage, fun h => ?_⟩
  rcases hiff.mp h with h | ⟨-, h⟩
  · cases h
  · cases h

end Aufs
