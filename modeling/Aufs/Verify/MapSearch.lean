import Aufs.Mkfs.FormatLemmas
import Aufs.Verify.Layout

/-! The searches of mkfs in its bitmaps, on maps of any content.

`AllocateZones` should be a first-fit search of the zone map. Its loop goes on at the set bit behind
a run that is too short, and from a set bit the run is empty: it goes on there for ever. The end of
the searched range is the size of the map in bits, added to a pointer to bytes. -/

namespace Aufs
open Bytes Word BitIterator

/-! ## First fit -/

/-- The `k` bits from `s` on are clear, and they are among the first `n`. -/
def ClearRun (m : Mem) (n k s : Nat) : Prop := s + k ≤ n ∧ ∀ i, s ≤ i → i < s + k → bit m i = false

/-- Bit `f` is the first clear one, and it is among the first `n`. -/
structure LowestClear (m : Mem) (n f : Nat) : Prop where
  lt : f < n
  clear : bit m f = false
  lowest : ∀ i < f, bit m i = true

theorem LowestClear.le (h : LowestClear m n f) (hi : bit m i = false) : f ≤ i :=
  Nat.not_lt.mp fun hlt => Bool.false_ne_true (hi.symm.trans (h.lowest i hlt))

theorem LowestClear.unique (h : LowestClear m n f) (h' : LowestClear m n' f') : f = f' :=
  Nat.le_antisymm (h.le h'.clear) (h'.le h.clear)

theorem ClearRun.clear (h : ClearRun m n k s) (hk : 1 ≤ k) : bit m s = false :=
  h.2 s (Nat.le_refl _) (by omega)

/-- What a first-fit search for `k` of the first `n` bits does: it takes the lowest run of `k` clear
bits, and reports an error if there is none. -/
def FirstFit (m : Mem) (n k : Nat) : Option (Except MkfsError (Nat × Mem)) → Prop
  | some (.ok (s, m')) => ClearRun m n k s ∧ (∀ s' < s, ¬ClearRun m n k s') ∧
      ∀ i, bit m' i = if s ≤ i ∧ i < s + k then true else bit m i
  | some (.error e) => e = .exception "Cannot allocate zones" ∧ ∀ s, ¬ClearRun m n k s
  | none => False

/-! ## `AllocateZones` -/

namespace SuperBlock

variable {config : Configuration} {k : Nat}

/-- From a set bit the loop does not get away. -/
theorem allocateZonesLoop_stuck (hk : 1 ≤ k) (hq : q < n) (hn : n < 2 ^ 60) (hset : bit m q = true)
    (fuel : Nat) : allocateZonesLoop m (atBit 0) (atBit n) k fuel (atBit q) = none := by
  have hself : findBit m true q (n - q) = q := findBit_self (by omega) hset
  induction fuel with
  | zero => rfl
  | succ fuel ih =>
    rw [allocateZonesLoop_succ hq hn]
    simp only [hself]
    rw [if_neg (by omega), ih]

/-- How a call of `AllocateZones` ends, or that it does not. -/
inductive ZonesOutcome (config : Configuration) (m : Mem) (n k : Nat) : Prop
  | full : (∀ i < n, bit m i = true) →
    (∀ fuel, allocateZones (fuel + 2) config m k =
      some (.error (.exception "Cannot allocate zones"))) → ZonesOutcome config m n k
  | found : LowestClear m n f → ClearRun m n k f →
    (∀ fuel, allocateZones (fuel + 2) config m k = some (.ok (u32 f, fillBits m f k true))) →
    ZonesOutcome config m n k
  | tail : LowestClear m n f → (∀ i, f ≤ i → i < n → bit m i = false) → n < f + k →
    (∀ fuel, allocateZones (fuel + 2) config m k =
      some (.error (.exception "Cannot allocate zones"))) → ZonesOutcome config m n k
  | stuck : LowestClear m n f → f ≤ q → q < n → q < f + k → bit m q = true →
    (∀ fuel, allocateZones fuel config m k = none) → ZonesOutcome config m n k

theorem zonesOutcome (hmap : config.numZoneMapBlocks < 2 ^ 32) (hk : 1 ≤ k) :
    ZonesOutcome config m (searchedBits config.numZoneMapBlocks config.blockSize) k := by
  have hn := searchedBits_lt config hmap
  have heq : ∀ fuel, allocateZones fuel config m k = _ := fun fuel => allocateZones_eq hmap
  simp only at heq
  generalize searchedBits config.numZoneMapBlocks config.blockSize = n at hn heq ⊢
  have hle : findBit m false 0 n ≤ 0 + n := findBit_le
  have hbelow : ∀ i < findBit m false 0 n, bit m i = true := fun i hi =>
    Bool.eq_true_of_not_eq_false (bit_before_findBit (Nat.zero_le _) hi)
  rcases Nat.lt_or_ge (findBit m false 0 n) n with hlt | hge
  · have hclear : bit m (findBit m false 0 n) = false := bit_findBit (by omega)
    generalize findBit m false 0 n = f at heq hlt hbelow hclear
    have hlow : LowestClear m n f := ⟨hlt, hclear, hbelow⟩
    have hfq : f ≤ findBit m true f (n - f) := le_findBit
    have hqn : findBit m true f (n - f) ≤ f + (n - f) := findBit_le
    have hrun : ∀ i, f ≤ i → i < findBit m true f (n - f) → bit m i = false := fun i h₁ h₂ =>
      Bool.eq_false_of_not_eq_true (bit_before_findBit h₁ h₂)
    have hset : findBit m true f (n - f) < n → bit m (findBit m true f (n - f)) = true :=
      fun h => bit_findBit (by omega)
    have hround : ∀ fuel, allocateZones (fuel + 1) config m k = _ := fun fuel =>
      (heq (fuel + 1)).trans (allocateZonesLoop_succ hlt hn)
    simp only at hround
    generalize findBit m true f (n - f) = q at hround hfq hqn hrun hset
    by_cases hkq : k ≤ q - f
    · refine .found hlow ⟨by omega, fun i h₁ h₂ => hrun i h₁ (by omega)⟩ fun fuel => ?_
      rw [hround, if_pos hkq]
    · rcases Nat.lt_or_ge q n with hq | hq
      · refine .stuck hlow hfq hq (by omega) (hset hq) fun fuel => ?_
        cases fuel with
        | zero => exact heq 0
        | succ fuel => rw [hround, if_neg hkq, allocateZonesLoop_stuck hk hq hn (hset hq)]
      · obtain rfl : q = n := by omega
        refine .tail hlow hrun (by omega) fun fuel => ?_
        rw [hround, if_neg hkq, allocateZonesLoop_end]
  · obtain hend : findBit m false 0 n = n := by omega
    rw [hend] at hbelow
    refine .full hbelow fun fuel => ?_
    rw [heq, hend, allocateZonesLoop_end]

/-- The maps of `n` bits on which `AllocateZones` is a first-fit search for `k` bits. The search
goes over `8 * n` bits: it finds no clear bit; or the lowest one starts a run that is long enough,
inside the map and with a number of 32 bits; or all bits from it on are clear and fewer than asked
for. -/
def FitsAtOnce (m : Mem) (n k : Nat) : Prop :=
  (∀ i < 8 * n, bit m i = true) ∨
    ∃ f, LowestClear m (8 * n) f ∧ (ClearRun m n k f ∧ f < 2 ^ 32 ∨
      8 * n < f + k ∧ ∀ i, f ≤ i → i < 8 * n → bit m i = false)

/-- The call that took the run at `f` is right about it if the run lies in the map and its number
was not cut. -/
theorem firstFit_found_iff (hk : 1 ≤ k) (hlow : LowestClear m (8 * n) f) :
    FirstFit m n k (some (.ok (u32 f, fillBits m f k true))) ↔ ClearRun m n k f ∧ f < 2 ^ 32 := by
  constructor
  · rintro ⟨hfirst, -, -⟩
    have hle : f ≤ u32 f := hlow.le (hfirst.clear hk)
    have hself : u32 f = f := Nat.le_antisymm (Nat.mod_le _ _) hle
    exact ⟨hself ▸ hfirst, hself ▸ u32_lt⟩
  · rintro ⟨hfirst, hlt⟩
    rw [u32_of_lt hlt]
    refine ⟨hfirst, fun s hs hbefore => ?_, fun i => bit_fillBits⟩
    exact absurd hs (Nat.not_lt.mpr (hlow.le (hbefore.clear hk)))

/-- For every map and every request, `AllocateZones` returns, with the lowest run of `k` clear bits
taken or with its error, exactly when `FitsAtOnce` holds. -/
theorem allocateZones_firstFit_iff {config : Configuration} {m : Mem} {k : Nat}
    (hmap : config.numZoneMapBlocks < 2 ^ 32) (hk : 1 ≤ k) :
    (∃ enough, ∀ fuel ≥ enough, FirstFit m (config.numZoneMapBlocks * config.blockSize * 8) k
        (allocateZones fuel config m k)) ↔
      FitsAtOnce m (config.numZoneMapBlocks * config.blockSize * 8) k := by
  have houtcome := zonesOutcome (m := m) (k := k) hmap hk
  have hsearched : searchedBits config.numZoneMapBlocks config.blockSize =
      8 * (config.numZoneMapBlocks * config.blockSize * 8) := rfl
  rw [hsearched] at houtcome
  generalize config.numZoneMapBlocks * config.blockSize * 8 = n at houtcome ⊢
  -- Two rounds are enough for any call that returns.
  have htwo : ∀ {out}, (∀ fuel, allocateZones (fuel + 2) config m k = out) →
      ((∃ enough, ∀ fuel ≥ enough, FirstFit m n k (allocateZones fuel config m k)) ↔
        FirstFit m n k out) := by
    intro out hout
    constructor
    · rintro ⟨enough, h⟩
      exact hout enough ▸ h (enough + 2) (by omega)
    · intro h
      refine ⟨2, fun fuel hfuel => ?_⟩
      obtain ⟨fuel, rfl⟩ := Nat.exists_eq_add_of_le' hfuel
      rwa [hout]
  cases houtcome with
  | full hset hout =>
    rw [htwo hout]
    refine ⟨fun _ => .inl hset, fun _ => ⟨rfl, fun s hrun => ?_⟩⟩
    have hbit := hset s (by have := hrun.1; omega)
    exact Bool.false_ne_true ((hrun.clear hk).symm.trans hbit)
  | found hlow hrun hout =>
    rw [htwo hout, firstFit_found_iff hk hlow]
    constructor
    · intro h
      exact .inr ⟨_, hlow, .inl h⟩
    · rintro (hset | ⟨f', hlow', h | ⟨hshort, -⟩⟩)
      · exact absurd (hlow.clear.symm.trans (hset _ hlow.lt)) Bool.false_ne_true
      · exact hlow.unique hlow' ▸ h
      · exact absurd hrun.1 (Nat.not_le.mpr (hlow.unique hlow' ▸ hshort))
  | tail hlow hclear hshort hout =>
    rw [htwo hout]
    refine ⟨fun _ => .inr ⟨_, hlow, .inr ⟨hshort, hclear⟩⟩, fun _ => ⟨rfl, fun s hrun => ?_⟩⟩
    have hle := hlow.le (hrun.clear hk)
    have hfit := hrun.1
    omega
  | stuck hlow hfq hqn hshort hset hout =>
    constructor
    · rintro ⟨enough, h⟩
      have hnone := h enough (Nat.le_refl _)
      rw [hout] at hnone
      exact hnone.elim
    · rintro (hall | ⟨f', hlow', h | ⟨-, hclear⟩⟩)
      · exact absurd (hlow.clear.symm.trans (hall _ hlow.lt)) Bool.false_ne_true
      · have hbit := h.1.2 _ (hlow.unique hlow' ▸ hfq) (hlow.unique hlow' ▸ hshort)
        exact absurd (hbit.symm.trans hset) Bool.false_ne_true
      · have hbit := hclear _ (hlow.unique hlow' ▸ hfq) hqn
        exact absurd (hbit.symm.trans hset) Bool.false_ne_true

/-- Two zones of a map whose bits from 3 on are clear. -/
theorem allocateZones_firstFit_eightZones :
    ∃ enough, ∀ fuel ≥ enough,
      FirstFit (fillBits (fun _ => 0) 0 3 true)
        (eightZones.numZoneMapBlocks * eightZones.blockSize * 8) 2
        (allocateZones fuel eightZones (fillBits (fun _ => 0) 0 3 true) 2) := by
  have hclear : ∀ i, 3 ≤ i → bit (fillBits (fun _ => 0) 0 3 true) i = false := by
    intro i hi
    rw [bit_fillBits, if_neg (by omega)]
    exact BitVec.getLsbD_zero
  refine (allocateZones_firstFit_iff (by decide) (by decide)).mpr (.inr ⟨3, ?_, .inl ⟨?_, ?_⟩⟩)
  · refine ⟨by decide, hclear 3 (Nat.le_refl _), fun i hi => ?_⟩
    rw [bit_fillBits, if_pos (by omega)]
  · exact ⟨by decide, fun i hi _ => hclear i hi⟩
  · decide

/-- Four clear bits in front of a set one, and five zones asked for: the call does not return,
though the five bits behind are clear. -/
theorem allocateZones_no_return :
    (∀ fuel, allocateZones fuel eightZones (fillBits (fun _ => 0) 4 1 true) 5 = none) ∧
      ClearRun (fillBits (fun _ => 0) 4 1 true)
        (eightZones.numZoneMapBlocks * eightZones.blockSize * 8) 5 5 := by
  have hclear : ∀ i, i ≠ 4 → bit (fillBits (fun _ => 0) 4 1 true) i = false := by
    intro i hi
    rw [bit_fillBits, if_neg (by omega)]
    exact BitVec.getLsbD_zero
  have hset : bit (fillBits (fun _ => 0) 4 1 true) 4 = true := by
    rw [bit_fillBits, if_pos (by decide)]
  refine ⟨?_, by decide, fun i hi _ => hclear i (by omega)⟩
  have hzero : ∀ {f n}, LowestClear (fillBits (fun _ => 0) 4 1 true) n f → f = 0 := fun hlow =>
    Nat.le_zero.mp (hlow.le (hclear 0 (by decide)))
  have houtcome : ZonesOutcome eightZones (fillBits (fun _ => 0) 4 1 true)
      (searchedBits eightZones.numZoneMapBlocks eightZones.blockSize) 5 :=
    zonesOutcome (by decide) (by decide)
  cases houtcome with
  | full hall _ =>
    exact absurd ((hclear 0 (by decide)).symm.trans (hall 0 (by decide))) Bool.false_ne_true
  | found hlow hrun _ =>
    cases hzero hlow
    exact absurd ((hrun.2 4 (by decide) (by decide)).symm.trans hset) Bool.false_ne_true
  | tail hlow hall _ _ =>
    cases hzero hlow
    exact absurd ((hall 4 (by decide) (by decide)).symm.trans hset) Bool.false_ne_true
  | stuck _ _ _ _ _ hout => exact hout

end SuperBlock

/-! ## The bits that are touched -/

/-- The bits that the loop of `std::fill` writes. -/
def stdFillLoopVisits (it : BitIterator) : Nat → List Nat
  | 0 => []
  | n + 1 => it.pos :: stdFillLoopVisits it.increment n

/-- The bits that `std::fill` writes. With `last` behind `first` it passes through all memory. -/
def stdFillVisits (first last : BitIterator) : Set Nat :=
  if last.pos < first.pos then {p | first.pos ≤ p}
  else {p | p ∈ stdFillLoopVisits first (last.pos - first.pos)}

/-- The bits that the loop of `std::find` reads. -/
def stdFindLoopVisits (m : Mem) (it : BitIterator) : Nat → Bool → List Nat
  | 0, _ => []
  | n + 1, v =>
    it.pos :: if it.deref.toBool m = v then [] else stdFindLoopVisits m it.increment n v

def stdFindVisits (m : Mem) (first last : BitIterator) (v : Bool) : Set Nat :=
  {p | p ∈ stdFindLoopVisits m first (last.pos - first.pos) v}

theorem mem_stdFillLoopVisits (h : p + n < 2 ^ 60) :
    i ∈ stdFillLoopVisits (atBit p) n ↔ p ≤ i ∧ i < p + n := by
  induction n generalizing p with
  | zero =>
    constructor
    · intro h
      cases h
    · intro h
      omega
  | succ n ih =>
    rw [stdFillLoopVisits, List.mem_cons, atBit_pos, atBit_increment (by omega), ih (by omega)]
    omega

theorem mem_stdFillVisits (h : p ≤ q) (hq : q < 2 ^ 60) :
    i ∈ stdFillVisits (atBit p) (atBit q) ↔ p ≤ i ∧ i < q := by
  rw [stdFillVisits, atBit_pos, atBit_pos, if_neg (by omega), Set.mem_ofPred_eq,
    mem_stdFillLoopVisits (by omega)]
  omega

theorem mem_stdFindLoopVisits (h : p + n < 2 ^ 60) :
    i ∈ stdFindLoopVisits m (atBit p) n v ↔ p ≤ i ∧ i < p + n ∧ i ≤ findBit m v p n := by
  induction n generalizing p with
  | zero =>
    constructor
    · intro h
      cases h
    · intro h
      omega
  | succ n ih =>
    rw [stdFindLoopVisits, List.mem_cons, atBit_pos, deref_toBool atBit_offset, atBit_pos, findBit]
    by_cases hbit : bit m p = v
    · rw [if_pos hbit, if_pos hbit, List.mem_nil_iff, or_false]
      omega
    · have hle : p + 1 ≤ findBit m v (p + 1) n := le_findBit
      rw [if_neg hbit, if_neg hbit, atBit_increment (by omega), ih (by omega)]
      omega

theorem mem_stdFindVisits (h : p ≤ q) (hq : q < 2 ^ 60) :
    i ∈ stdFindVisits m (atBit p) (atBit q) v ↔
      p ≤ i ∧ i < q ∧ i ≤ findBit m v p (q - p) := by
  rw [stdFindVisits, atBit_pos, atBit_pos, Set.mem_ofPred_eq, mem_stdFindLoopVisits (by omega)]
  omega

namespace SuperBlock

variable {config : Configuration} {k : Nat}

/-- The bits that the three calls of `std::fill` in `FillZoneMap` and `FillInodeMap` write. -/
def fillMapVisits (blocks bits : Nat) : Set Nat :=
  let it : BitIterator := { mData := 0, mOffset := 0 }
  stdFillVisits it (it.advance 1) ∪ stdFillVisits (it.advance 1) (it.advance blocks) ∪
    stdFillVisits (it.advance blocks) (it.advance bits)

def fillZoneMapVisits (config : Configuration) : Set Nat :=
  let bits := u32 (config.numZoneMapBlocks * config.blockSize * 8)
  fillMapVisits (min config.numZones bits) bits

def fillInodeMapVisits (config : Configuration) : Set Nat :=
  fillMapVisits (numInodes config) (u32 (config.numInodeMapBlocks * config.blockSize * 8))

def allocateInodeVisits (config : Configuration) (m : Mem) : Set Nat :=
  let e : BitIterator := { mData := config.numInodeMapBlocks * config.blockSize * 8, mOffset := 0 }
  let b : BitIterator := { mData := 0, mOffset := 0 }
  let it := stdFind m b e false
  stdFindVisits m b e false ∪ if it ≠ e then {it.pos} else ∅

def allocateZonesLoopVisits (m : Mem) (e : BitIterator) (zones : Nat) : Nat → BitIterator → Set Nat
  | 0, _ => ∅
  | fuel + 1, it =>
    if it ≠ e then
      let jt := stdFind m it e true
      stdFindVisits m it e true ∪
        if u64OfInt (jt.distance it) ≥ zones then stdFillVisits it (it.advance zones)
        else allocateZonesLoopVisits m e zones fuel jt
    else ∅

/-- The bits that `AllocateZones` touches in any number of rounds. -/
def allocateZonesVisits (config : Configuration) (m : Mem) (zones : Nat) : Set Nat :=
  let e : BitIterator := { mData := config.numZoneMapBlocks * config.blockSize * 8, mOffset := 0 }
  let b : BitIterator := { mData := 0, mOffset := 0 }
  stdFindVisits m b e false ∪
    ⋃ fuel, allocateZonesLoopVisits m e zones fuel (stdFind m b e false)

/-- The bits are bits of the data of a `Block`. -/
def Inside (config : Configuration) (visits : Set Nat) : Prop :=
  ∀ p ∈ visits, p < config.blockSize * 8

/-- `FillZoneMap` and `FillInodeMap` fill the bits of the map, block 0 among them, or run away. -/
theorem fillMap_inside_iff (hle : blocks ≤ bits) (hb : bits < 2 ^ 32) :
    Inside config (fillMapVisits blocks bits) ↔ 1 ≤ blocks ∧ bits ≤ config.blockSize * 8 := by
  have hone : advance { mData := 0, mOffset := 0 } 1 = atBit 1 := start_advance (by decide)
  rcases Nat.eq_zero_or_pos blocks with rfl | hpos
  · -- The second call starts behind its end.
    constructor
    · intro h
      have hrun : config.blockSize * 8 + 1 < config.blockSize * 8 := by
        apply h
        refine .inl (.inr ?_)
        rw [hone, start_advance (by decide), stdFillVisits, atBit_pos, atBit_pos,
          if_pos (by decide)]
        exact Nat.le_add_left _ _
      omega
    · intro h
      omega
  · have hmem : ∀ i, i ∈ fillMapVisits blocks bits ↔ i < bits := by
      intro i
      simp only [fillMapVisits, Set.mem_union, hone, start_advance (show blocks < 2 ^ 60 by omega),
        start_advance (show bits < 2 ^ 60 by omega)]
      rw [start_eq, mem_stdFillVisits (by omega) (by omega),
        mem_stdFillVisits (by omega) (by omega), mem_stdFillVisits hle (by omega)]
      omega
    constructor
    · intro h
      have hlast := h (bits - 1) ((hmem _).mpr (by omega))
      omega
    · intro h i hi
      have hlt := (hmem i).mp hi
      omega

/-- A search of `n` bits that stops at bit `q`. -/
theorem search_inside_iff {q n bits : Nat} (hq : q ≤ n) :
    (∀ i, i < n ∧ i ≤ q → i < bits) ↔ n ≤ bits ∨ q < bits := by
  constructor
  · intro h
    by_contra hcon
    have hlt := h (min q (n - 1)) (by omega)
    omega
  · intro h i hi
    omega

/-- The searched range is empty or longer than the data of the block. -/
theorem searchedBits_le_iff :
    searchedBits mapBlocks size ≤ size * 8 ↔ mapBlocks * size = 0 := by
  have hle : mapBlocks = 0 ∨ size ≤ mapBlocks * size :=
    (Nat.eq_zero_or_pos mapBlocks).imp_right (Nat.le_mul_of_pos_left size)
  simp only [searchedBits, Bits]
  constructor
  · intro h
    rcases hle with rfl | hle
    · exact Nat.zero_mul _
    · omega
  · intro h
    omega

theorem mem_allocateInodeVisits (hmap : config.numInodeMapBlocks < 2 ^ 32) :
    i ∈ allocateInodeVisits config m ↔
      i < searchedBits config.numInodeMapBlocks config.blockSize ∧
        i ≤ findBit m false 0 (searchedBits config.numInodeMapBlocks config.blockSize) := by
  have hn := searchedBits_lt config hmap
  simp only [allocateInodeVisits]
  rw [mapEnd_eq, start_eq]
  generalize searchedBits config.numInodeMapBlocks config.blockSize = n at hn ⊢
  have hle : findBit m false 0 n ≤ 0 + n := findBit_le
  rw [stdFind_atBit (Nat.zero_le _) hn, Set.mem_union, mem_stdFindVisits (Nat.zero_le _) hn,
    Nat.sub_zero, atBit_pos]
  split
  · next hne =>
    rw [ne_eq, atBit_inj] at hne
    rw [Set.mem_singleton_iff]
    omega
  · rw [Set.mem_empty_iff_false, or_false]
    omega

/-- The rounds of `AllocateZones` from bit `p` on read up to the first set bit. -/
theorem mem_allocateZonesLoopVisits (hp : p ≤ n) (hn : n < 2 ^ 60)
    (hi : i ∈ allocateZonesLoopVisits m (atBit n) k fuel (atBit p)) :
    p ≤ i ∧ i < n ∧ i ≤ findBit m true p (n - p) := by
  induction fuel generalizing p with
  | zero => exact hi.elim
  | succ fuel ih =>
    have hge : p ≤ findBit m true p (n - p) := le_findBit
    have hle : findBit m true p (n - p) ≤ p + (n - p) := findBit_le
    rw [allocateZonesLoopVisits] at hi
    split at hi
    · simp only at hi
      rw [stdFind_atBit hp hn, atBit_distance hge (by omega)] at hi
      rcases hi with hi | hi
      · exact (mem_stdFindVisits hp hn).mp hi
      · split at hi
        · rw [atBit_advance (by omega) (by omega),
            mem_stdFillVisits (by omega) (by omega)] at hi
          omega
        · obtain ⟨hqi, hin, hstop⟩ := ih (by omega) hi
          have hset : bit m (findBit m true p (n - p)) = true := bit_findBit (by omega)
          have hself := findBit_self (n := n - findBit m true p (n - p)) (by omega) hset
          omega
    · exact hi.elim

/-- Together the searches of `AllocateZones` read up to the first set bit behind a clear one. -/
theorem mem_allocateZonesVisits (hmap : config.numZoneMapBlocks < 2 ^ 32) :
    i ∈ allocateZonesVisits config m k ↔
      let n := searchedBits config.numZoneMapBlocks config.blockSize
      let f := findBit m false 0 n
      i < n ∧ i ≤ findBit m true f (n - f) := by
  have hn := searchedBits_lt config hmap
  simp only [allocateZonesVisits]
  rw [mapEnd_eq, start_eq]
  generalize searchedBits config.numZoneMapBlocks config.blockSize = n at hn ⊢
  have hfn : findBit m false 0 n ≤ 0 + n := findBit_le
  rw [stdFind_atBit (Nat.zero_le _) hn, Set.mem_union, mem_stdFindVisits (Nat.zero_le _) hn,
    Nat.sub_zero, Set.mem_iUnion]
  generalize findBit m false 0 n = f at hfn ⊢
  have hfq : f ≤ findBit m true f (n - f) := le_findBit
  constructor
  · rintro (h | ⟨fuel, h⟩)
    · omega
    · exact (mem_allocateZonesLoopVisits (by omega) hn h).2
  · intro h
    rcases Nat.lt_or_ge i f with hlt | hge
    · exact .inl ⟨Nat.zero_le _, h.1, Nat.le_of_lt hlt⟩
    · refine .inr ⟨1, ?_⟩
      rw [allocateZonesLoopVisits, if_pos (by rw [ne_eq, atBit_inj]; omega)]
      exact .inl ((mem_stdFindVisits (by omega) hn).mpr ⟨hge, h⟩)

theorem allocateInode_inside_iff (hmap : config.numInodeMapBlocks < 2 ^ 32) :
    Inside config (allocateInodeVisits config m) ↔
      config.numInodeMapBlocks * config.blockSize = 0 ∨
        ∃ f < config.blockSize * 8, bit m f = false := by
  rw [← searchedBits_le_iff]
  simp only [Inside, mem_allocateInodeVisits hmap]
  generalize searchedBits config.numInodeMapBlocks config.blockSize = n
  have hfn : findBit m false 0 n ≤ 0 + n := findBit_le
  rw [search_inside_iff (by omega)]
  rcases Nat.lt_or_ge (config.blockSize * 8) n with hlt | hge
  · refine or_congr_right ⟨fun hf => ⟨_, hf, bit_findBit (by omega)⟩, fun ⟨f, hf, hclear⟩ => ?_⟩
    exact Nat.lt_of_not_le fun hle =>
      bit_before_findBit (Nat.zero_le f) (Nat.lt_of_lt_of_le hf hle) hclear
  · exact ⟨fun _ => .inl hge, fun _ => .inl hge⟩

theorem allocateZones_inside_iff (hmap : config.numZoneMapBlocks < 2 ^ 32) :
    Inside config (allocateZonesVisits config m k) ↔
      config.numZoneMapBlocks * config.blockSize = 0 ∨
        ∃ f q, f < q ∧ q < config.blockSize * 8 ∧ bit m f = false ∧ bit m q = true := by
  rw [← searchedBits_le_iff]
  simp only [Inside, mem_allocateZonesVisits hmap]
  generalize searchedBits config.numZoneMapBlocks config.blockSize = n
  have hfn : findBit m false 0 n ≤ 0 + n := findBit_le
  have hfirst : ∀ f, bit m f = false → findBit m false 0 n ≤ f := fun f hclear =>
    Nat.le_of_not_lt fun hlt => bit_before_findBit (Nat.zero_le f) hlt hclear
  have hclear : findBit m false 0 n < n → bit m (findBit m false 0 n) = false :=
    fun h => bit_findBit (by omega)
  generalize findBit m false 0 n = f at hfn hfirst hclear ⊢
  have hfq : f ≤ findBit m true f (n - f) := le_findBit
  have hqn : findBit m true f (n - f) ≤ f + (n - f) := findBit_le
  rw [search_inside_iff (by omega)]
  rcases Nat.lt_or_ge (config.blockSize * 8) n with hlt | hge
  · refine or_congr_right ⟨fun hq => ?_, fun ⟨f', q, hfq', hq, hf', hset⟩ => ?_⟩
    · have hset : bit m (findBit m true f (n - f)) = true := bit_findBit (by omega)
      have hne : f ≠ findBit m true f (n - f) := fun heq => by
        rw [← heq, hclear (by omega)] at hset
        cases hset
      exact ⟨f, _, by omega, hq, hclear (by omega), hset⟩
    · have hle := hfirst f' hf'
      exact Nat.lt_of_not_le fun hcon =>
        bit_before_findBit (show f ≤ q by omega) (Nat.lt_of_lt_of_le hq hcon) hset
  · exact ⟨fun _ => .inl hge, fun _ => .inl hge⟩

theorem allocateInode_error_iff (hmap : config.numInodeMapBlocks < 2 ^ 32) :
    (∃ e, allocateInode config m = .error e) ↔
      ∀ i < 8 * (config.numInodeMapBlocks * config.blockSize * 8), bit m i = true := by
  rw [allocateInode_eq hmap, searchedBits, Bits]
  generalize 8 * (config.numInodeMapBlocks * config.blockSize * 8) = n
  have hfn : findBit m false 0 n ≤ 0 + n := findBit_le
  simp only
  split
  · next hlt =>
    have hclear : bit m (findBit m false 0 n) = false := bit_findBit (by omega)
    constructor
    · rintro ⟨e, he⟩
      cases he
    · intro hall
      exact absurd (hclear.symm.trans (hall _ hlt)) Bool.false_ne_true
  · next hge =>
    refine ⟨fun _ i hi => ?_, fun _ => ⟨_, rfl⟩⟩
    have hbefore : i < findBit m false 0 n := by omega
    exact Bool.eq_true_of_not_eq_false (bit_before_findBit (Nat.zero_le _) hbefore)

/-- Which bits mkfs touches in its maps: `FillZoneMap` and `FillInodeMap` stay inside the data of
their block exactly when the map has a bit to clear and is no longer than the block, `AllocateInode`
exactly when the block has a clear bit, and `AllocateZones` exactly when the block has a clear bit
with a set bit behind it (or the map has no block at all). On a map without a clear bit
`AllocateInode` reports its error exactly when nothing clear follows up to eight times the map's
length. -/
theorem maps_inside_iff {config : Configuration} {m : Mem} {k : Nat}
    (hzmap : config.numZoneMapBlocks < 2 ^ 32) (himap : config.numInodeMapBlocks < 2 ^ 32) :
    (Inside config (fillZoneMapVisits config) ↔
      1 ≤ min config.numZones (u32 (config.numZoneMapBlocks * config.blockSize * 8)) ∧
        u32 (config.numZoneMapBlocks * config.blockSize * 8) ≤ config.blockSize * 8) ∧
    (Inside config (fillInodeMapVisits config) ↔
      1 ≤ numInodes config ∧
        u32 (config.numInodeMapBlocks * config.blockSize * 8) ≤ config.blockSize * 8) ∧
    (Inside config (allocateInodeVisits config m) ↔
      config.numInodeMapBlocks * config.blockSize = 0 ∨
        ∃ f < config.blockSize * 8, bit m f = false) ∧
    (Inside config (allocateZonesVisits config m k) ↔
      config.numZoneMapBlocks * config.blockSize = 0 ∨
        ∃ f q, f < q ∧ q < config.blockSize * 8 ∧ bit m f = false ∧ bit m q = true) ∧
    ((∀ i < config.numInodeMapBlocks * config.blockSize * 8, bit m i = true) →
      ((∃ e, allocateInode config m = .error e) ↔
        ∀ i < 8 * (config.numInodeMapBlocks * config.blockSize * 8), bit m i = true)) :=
  ⟨fillMap_inside_iff (Nat.min_le_right _ _) u32_lt,
    fillMap_inside_iff (Nat.min_le_right _ _) u32_lt,
    allocateInode_inside_iff himap, allocateZones_inside_iff hzmap,
    fun _ => allocateInode_error_iff himap⟩

/-- The maps of a fresh image of eight zones: the first clear bit is bit 1, and bit 8 is set. -/
theorem maps_inside_eightZones :
    Inside eightZones (fillZoneMapVisits eightZones) ∧
      Inside eightZones (fillInodeMapVisits eightZones) ∧
      Inside eightZones (allocateInodeVisits eightZones (filledMap (fun _ => 0) 8 32768)) ∧
      Inside eightZones (allocateZonesVisits eightZones (filledMap (fun _ => 0) 8 32768) 1) := by
  have hone : bit (filledMap (fun _ => 0) 8 32768) 1 = false :=
    (bit_filledMap (by decide) (by decide) (by decide)).mpr (by decide)
  have height : bit (filledMap (fun _ => 0) 8 32768) 8 = true := by
    rw [← Bool.not_eq_false, bit_filledMap (by decide) (by decide) (by decide)]
    decide
  obtain ⟨hfillZone, hfillInode, hinode, hzones, -⟩ :=
    maps_inside_iff (m := filledMap (fun _ => 0) 8 32768) (k := 1)
      (show eightZones.numZoneMapBlocks < 2 ^ 32 by decide)
      (show eightZones.numInodeMapBlocks < 2 ^ 32 by decide)
  exact ⟨hfillZone.mpr (by decide), hfillInode.mpr (by decide),
    hinode.mpr (.inr ⟨1, by decide, hone⟩),
    hzones.mpr (.inr ⟨1, 8, by decide, by decide, hone, height⟩)⟩

/-- A map whose bits are all set, with a clear bit right behind the block: the search goes on past
the block and returns the number of the bit behind it. -/
theorem allocateInode_past_map :
    (∀ i < eightZones.numInodeMapBlocks * eightZones.blockSize * 8,
        bit (fillBits (fun _ => 0) 0 32768 true) i = true) ∧
      ¬Inside eightZones (allocateInodeVisits eightZones (fillBits (fun _ => 0) 0 32768 true)) ∧
      ¬∃ e, allocateInode eightZones (fillBits (fun _ => 0) 0 32768 true) = .error e := by
  have hset : ∀ i < 32768, bit (fillBits (fun _ => 0) 0 32768 true) i = true := by
    intro i hi
    rw [bit_fillBits, if_pos (by omega)]
  have hclear : bit (fillBits (fun _ => 0) 0 32768 true) 32768 = false := by
    rw [bit_fillBits, if_neg (by omega)]
    exact BitVec.getLsbD_zero
  have hmap : eightZones.numInodeMapBlocks < 2 ^ 32 := by decide
  refine ⟨hset, ?_, ?_⟩
  · rw [allocateInode_inside_iff hmap]
    rintro (hzero | ⟨f, hf, hbit⟩)
    · exact absurd hzero (by decide)
    · exact absurd (hbit.symm.trans (hset f hf)) Bool.false_ne_true
  · rw [allocateInode_error_iff hmap]
    intro hall
    exact absurd (hclear.symm.trans (hall 32768 (by decide))) Bool.false_ne_true

end SuperBlock

end Aufs
