import Aufs.Lib.Bytes
import Aufs.Lib.Word
import Mathlib.Algebra.Order.Group.Nat
import Mathlib.Algebra.Order.Group.Int

/-! The bit iterators of `user/bit_iterator.hpp`, and `std::fill` and `std::find` over them.

`m_data` is the address of a byte, counted from the start of the data the iterator was made from
and computed modulo `2 ^ 64` as pointers are. -/

namespace Aufs
open Bytes Word

/-- `Bits`, the bits of a `BitType`. -/
def Bits : Nat := 8

structure BitReference where
  mWord : Nat
  mMask : Byte

namespace BitReference

def toBool (m : Mem) (r : BitReference) : Bool := m r.mWord &&& r.mMask != 0#8

/-- `operator=` -/
def assign (m : Mem) (r : BitReference) (v : Bool) : Mem :=
  Function.update m r.mWord (if v then m r.mWord ||| r.mMask else m r.mWord &&& ~~~r.mMask)

end BitReference

structure BitIterator where
  mData : Nat
  mOffset : Nat
  deriving DecidableEq, Repr

namespace BitIterator

/-- The bit position an iterator stands for. -/
def pos (it : BitIterator) : Nat := Bits * it.mData + it.mOffset

def increment (it : BitIterator) : BitIterator :=
  if it.mOffset = Bits - 1 then { mData := u64 (it.mData + 1), mOffset := 0 }
  else { it with mOffset := it.mOffset + 1 }

def decrement (it : BitIterator) : BitIterator :=
  if it.mOffset = 0 then { mData := u64 (it.mData + (2 ^ 64 - 1)), mOffset := Bits - 1 }
  else { it with mOffset := it.mOffset - 1 }

/-- `n / Bits` and `n % Bits` mix a `ptrdiff_t` with a `size_t`, so both are unsigned. -/
def advance (it : BitIterator) (d : Int) : BitIterator :=
  let n := u64OfInt (it.mOffset + d)
  let data := u64 (it.mData + n / Bits)
  let n : Int := n % Bits
  if n < 0 then { mData := u64 (data + (2 ^ 64 - 1)), mOffset := u64OfInt (n + Bits) }
  else { mData := data, mOffset := u64OfInt n }

/-- `operator-` by a distance, whose negation is a `ptrdiff_t` again. -/
def sub (it : BitIterator) (d : Int) : BitIterator := it.advance (Int.bmod (-d) (2 ^ 64))

/-- `operator==` -/
def eq (l r : BitIterator) : Bool := l.mData == r.mData && l.mOffset == r.mOffset

/-- `operator<` -/
def lt (l r : BitIterator) : Bool :=
  l.mData < r.mData || (l.mData == r.mData && l.mOffset < r.mOffset)

/-- `operator*` -/
def deref (it : BitIterator) : BitReference := { mWord := it.mData, mMask := 1#8 <<< it.mOffset }

/-- `operator-` between iterators -/
def distance (l r : BitIterator) : Int :=
  Int.bmod (Bits * (l.mData - r.mData : Int) + l.mOffset - r.mOffset) (2 ^ 64)

end BitIterator

def stdFillLoop (m : Mem) (it : BitIterator) : Nat → Bool → Mem
  | 0, _ => m
  | n + 1, v => stdFillLoop (it.deref.assign m v) it.increment n v

/-- `std::fill`. Every `++` moves one position on, so the loop stops after
`last.pos - first.pos` rounds; with `last` behind `first` it never does. -/
def stdFill (m : Mem) (first last : BitIterator) (v : Bool) : Option Mem :=
  if last.pos < first.pos then none else some (stdFillLoop m first (last.pos - first.pos) v)

def stdFindLoop (m : Mem) (it : BitIterator) : Nat → Bool → BitIterator
  | 0, _ => it
  | n + 1, v => if it.deref.toBool m = v then it else stdFindLoop m it.increment n v

/-- `std::find`, for `last` at or after `first`. -/
def stdFind (m : Mem) (first last : BitIterator) (v : Bool) : BitIterator :=
  stdFindLoop m first (last.pos - first.pos) v

/-! ## Iterators are bit positions -/

namespace BitIterator

/-- An iterator whose byte address is far from wrapping. -/
structure Ok (it : BitIterator) : Prop where
  offset : it.mOffset < Bits
  data : it.mData < 2 ^ 62

theorem ext_pos {it it' : BitIterator} (h : it.mOffset < Bits) (h' : it'.mOffset < Bits)
    (hpos : it.pos = it'.pos) : it = it' := by
  obtain ⟨d, o⟩ := it
  obtain ⟨d', o'⟩ := it'
  simp only [pos, Bits] at *
  have : d = d' := by omega
  have : o = o' := by omega
  subst d' o'
  rfl

/-! ### Moves

Positions are counted modulo the `2 ^ 67` bits the addresses number. -/

/-- An iterator over a byte that has an address. -/
structure Valid (it : BitIterator) : Prop where
  offset : it.mOffset < Bits
  data : it.mData < 2 ^ 64

/-- The values of a `ptrdiff_t`. -/
def IsPtrdiff (d : Int) : Prop := -2 ^ 63 ≤ d ∧ d < 2 ^ 63

/-- The iterator at bit `p`. -/
def atBit (p : Nat) : BitIterator := { mData := p / Bits, mOffset := p % Bits }

@[simp] theorem atBit_pos : (atBit p).pos = p := by
  simp only [pos, atBit, Bits]
  omega

theorem atBit_offset : (atBit p).mOffset < Bits := Nat.mod_lt _ (by decide)

theorem eq_atBit {it : BitIterator} (h : it.mOffset < Bits) (hpos : it.pos = p) : it = atBit p :=
  ext_pos h atBit_offset (by rw [hpos, atBit_pos])

theorem atBit_inj : atBit p = atBit q ↔ p = q := by
  constructor
  · intro h
    rw [← atBit_pos (p := p), h, atBit_pos]
  · intro h
    rw [h]

/-- The iterator at bit `p`, the addresses wrapping. -/
def atPos (p : Int) : BitIterator := atBit (p % 2 ^ 67).toNat

theorem atPos_valid : (atPos p).Valid := by
  refine ⟨atBit_offset, ?_⟩
  simp only [atPos, atBit, Bits]
  omega

theorem atPos_pos (h : 0 ≤ p) (h' : p < 2 ^ 67) : ((atPos p).pos : Int) = p := by
  rw [atPos, atBit_pos]
  omega

theorem atPos_inj : atPos p = atPos q ↔ p % 2 ^ 67 = q % 2 ^ 67 := by
  rw [atPos, atPos, atBit_inj]
  omega

theorem Valid.pos_lt {it : BitIterator} (h : it.Valid) : it.pos < 2 ^ 67 := by
  obtain ⟨ho, hd⟩ := h
  simp only [pos, Bits] at *
  omega

theorem Valid.eq_atPos {it : BitIterator} (h : it.Valid) : it = atPos it.pos := by
  have hlt := h.pos_lt
  refine eq_atBit h.offset ?_
  omega

theorem increment_atPos : (atPos p).increment = atPos (p + 1) := by
  by_cases hlast : (atPos p).mOffset = Bits - 1
  · rw [increment, if_pos hlast]
    simp only [atPos, atBit, Bits, u64, mk.injEq] at hlast ⊢
    omega
  · rw [increment, if_neg hlast]
    simp only [atPos, atBit, Bits, mk.injEq] at hlast ⊢
    omega

/-- Whether a move of `d` from bit `p` goes to an earlier byte. -/
def goesBack (p d : Int) : Nat := if p % 8 + d < 0 then 1 else 0

/-- The sum, read as a `size_t`, is `2 ^ 64` too large if it was negative. -/
theorem u64OfInt_offset_add (hd : IsPtrdiff d) :
    (u64OfInt ((atPos p).mOffset + d) : Int) = (atPos p).mOffset + d + 2 ^ 64 * goesBack p d := by
  obtain ⟨hlo, hhi⟩ := hd
  have hoff : ((atPos p).mOffset : Int) = p % 8 := by
    simp only [atPos, atBit, Bits]
    omega
  rw [hoff, goesBack, u64OfInt]
  split
  · omega
  · omega

/-- So its quotient is `2 ^ 61` bytes too large. -/
theorem advance_atPos (hd : IsPtrdiff d) :
    (atPos p).advance d = atPos (p + d + 2 ^ 64 * goesBack p d) := by
  have hn := u64OfInt_offset_add (p := p) hd
  rw [advance, if_neg (by omega)]
  generalize u64OfInt ((atPos p).mOffset + d) = n at *
  have hrem : u64OfInt ((n : Int) % Bits) = n % Bits := by
    rw [← Int.natCast_mod, u64OfInt_natCast (by simp only [Bits]; omega)]
  have hsum : p + d + 2 ^ 64 * goesBack p d = p - (atPos p).mOffset + n := by omega
  rw [hrem, hsum]
  simp only [atPos, atBit, Bits, u64, mk.injEq]
  omega

theorem distance_atPos (hd : IsPtrdiff d) (h : (q - p) % 2 ^ 64 = d % 2 ^ 64) :
    (atPos q).distance (atPos p) = d := by
  obtain ⟨hlo, hhi⟩ := hd
  simp only [distance, atPos, atBit, Bits]
  rw [Int.bmod_def]
  split
  · omega
  · omega

theorem Valid.increment_eq {it : BitIterator} (h : it.Valid) :
    it.increment = atPos (it.pos + 1) := by
  conv => lhs; rw [h.eq_atPos]
  exact increment_atPos

theorem Valid.advance_eq {it : BitIterator} (h : it.Valid) (hd : IsPtrdiff d) :
    it.advance d = atPos (it.pos + d + 2 ^ 64 * goesBack it.pos d) := by
  conv => lhs; rw [h.eq_atPos]
  exact advance_atPos hd

/-! ### Far from the wrap -/

theorem Ok.valid {it : BitIterator} (h : it.Ok) : it.Valid :=
  ⟨h.offset, Nat.lt_trans h.data (by decide)⟩

theorem Ok.pos_lt {it : BitIterator} (h : it.Ok) : it.pos < 2 ^ 65 := by
  obtain ⟨ho, hd⟩ := h
  simp only [pos, Bits] at *
  omega

theorem atPos_natCast (hp : p < 2 ^ 67) : atPos (p : Nat) = atBit p := by
  rw [atPos]
  congr 1
  omega

theorem increment_pos {it : BitIterator} (h : it.Ok) :
    it.increment.mOffset < Bits ∧ it.increment.pos = it.pos + 1 := by
  have hlt := h.pos_lt
  have heq : it.increment = atBit (it.pos + 1) := by
    rw [h.valid.increment_eq, ← atPos_natCast (by omega)]
    rfl
  rw [heq]
  exact ⟨atBit_offset, atBit_pos⟩

/-- Moving forward by `d` bits. -/
theorem advance_pos {it : BitIterator} (h : it.Ok) {d : Nat} (hd : d < 2 ^ 62) :
    (it.advance d).mOffset < Bits ∧ (it.advance d).pos = it.pos + d := by
  have hlt := h.pos_lt
  have heq : it.advance d = atBit (it.pos + d) := by
    have hforward : goesBack it.pos d = 0 := if_neg (by omega)
    rw [h.valid.advance_eq ⟨by omega, by omega⟩, hforward, ← atPos_natCast (by omega)]
    push_cast
    rw [Int.add_zero]
  rw [heq]
  exact ⟨atBit_offset, atBit_pos⟩

/-! ### The bit under an iterator -/

theorem deref_toBool {it : BitIterator} (h : it.mOffset < Bits) :
    it.deref.toBool m = bit m it.pos := by
  have h1 : it.pos / 8 = it.mData := by simp only [pos, Bits] at *; omega
  have h2 : it.pos % 8 = it.mOffset := by simp only [pos, Bits] at *; omega
  have hne : BitVec.twoPow 8 it.mOffset ≠ 0#8 := by
    intro h0
    have hbit := congrArg (BitVec.getLsbD · it.mOffset) h0
    simp only [Bits] at h
    simp [h] at hbit
  simp only [BitReference.toBool, deref, bit, h1, h2]
  rw [← BitVec.twoPow_eq, BitVec.and_twoPow]
  cases (m it.mData).getLsbD it.mOffset <;> simp [hne]

theorem deref_assign {it : BitIterator} (h : it.mOffset < Bits) :
    it.deref.assign m v = setBit m it.pos v := by
  have h1 : it.pos / 8 = it.mData := by simp only [pos, Bits] at *; omega
  have h2 : it.pos % 8 = it.mOffset := by simp only [pos, Bits] at *; omega
  simp only [BitReference.assign, deref, setBit, byteSet, h1, h2]
  rfl

theorem increment_ok {it : BitIterator} (h : it.Ok) (hlt : it.mData + 1 < 2 ^ 62) :
    it.increment.Ok := by
  refine ⟨(increment_pos h).1, ?_⟩
  unfold increment
  split
  · simp only [u64]
    omega
  · exact h.data

theorem increment_data_le (it : BitIterator) : it.increment.mData ≤ it.mData + 1 := by
  unfold increment
  split
  · exact Nat.mod_le _ _
  · exact Nat.le_succ _

end BitIterator

theorem stdFillLoop_eq {it : BitIterator} (h : it.Ok) (hn : it.mData + n < 2 ^ 62) :
    stdFillLoop m it n v = fillBits m it.pos n v := by
  induction n generalizing m it with
  | zero => rfl
  | succ n ih =>
    have hinc := BitIterator.increment_pos h
    have hok := BitIterator.increment_ok h (by omega)
    have hdata := it.increment_data_le
    rw [stdFillLoop, ih hok (by omega), BitIterator.deref_assign h.offset, hinc.2]
    rfl

theorem stdFindLoop_pos {it : BitIterator} (h : it.Ok) (hn : it.mData + n < 2 ^ 62) :
    (stdFindLoop m it n v).mOffset < Bits ∧
      (stdFindLoop m it n v).pos = findBit m v it.pos n := by
  induction n generalizing it with
  | zero => exact ⟨h.offset, rfl⟩
  | succ n ih =>
    rw [stdFindLoop, findBit, BitIterator.deref_toBool h.offset]
    split
    · exact ⟨h.offset, rfl⟩
    · have hdata := it.increment_data_le
      have := ih (BitIterator.increment_ok h (by omega)) (by omega)
      rwa [(BitIterator.increment_pos h).2] at this

/-! ## Iterators by position -/

namespace BitIterator

theorem atBit_data_le : (atBit p).mData ≤ p := Nat.div_le_self _ _

theorem atBit_ok (h : p < 2 ^ 60) : (atBit p).Ok :=
  ⟨atBit_offset, Nat.lt_of_le_of_lt atBit_data_le (by omega)⟩

/-- The start of the byte `n`. -/
theorem atBit_byte (n : Nat) : atBit (Bits * n) = { mData := n, mOffset := 0 } := by
  rw [atBit, Nat.mul_div_cancel_left _ (by decide), Nat.mul_mod_right]

theorem atBit_increment (hp : p < 2 ^ 60) : (atBit p).increment = atBit (p + 1) := by
  obtain ⟨hoff, hpos⟩ := increment_pos (atBit_ok hp)
  exact eq_atBit hoff (by rw [hpos, atBit_pos])

theorem atBit_advance (hp : p < 2 ^ 60) (hd : d < 2 ^ 60) :
    (atBit p).advance (d : Nat) = atBit (p + d) := by
  obtain ⟨hoff, hpos⟩ := advance_pos (atBit_ok hp) (d := d) (by omega)
  exact eq_atBit hoff (by rw [hpos, atBit_pos])

/-- The start of a map. -/
theorem start_eq : ({ mData := 0, mOffset := 0 } : BitIterator) = atBit 0 := rfl

theorem start_advance (hd : d < 2 ^ 60) :
    advance { mData := 0, mOffset := 0 } (d : Nat) = atBit d := by
  have h := atBit_advance (show 0 < 2 ^ 60 by decide) hd
  rwa [Nat.zero_add] at h

/-- The distance forward, as the `size_t` it is cast to. -/
theorem atBit_distance (h : q ≤ p) (hp : p < 2 ^ 60) :
    u64OfInt ((atBit p).distance (atBit q)) = p - q := by
  have hdist : (atBit p).distance (atBit q) = ((p - q : Nat) : Int) := by
    rw [← atPos_natCast (p := p) (by omega), ← atPos_natCast (p := q) (by omega)]
    refine distance_atPos ⟨by omega, by omega⟩ ?_
    rw [Int.natCast_sub h]
  rw [hdist, u64OfInt_natCast (by omega)]

end BitIterator

open BitIterator

theorem stdFill_atBit (h : p ≤ q) (hq : q < 2 ^ 60) :
    stdFill m (atBit p) (atBit q) v = some (fillBits m p (q - p) v) := by
  have hdata : (atBit p).mData ≤ p := atBit_data_le
  rw [stdFill, atBit_pos, atBit_pos, if_neg (by omega), stdFillLoop_eq (atBit_ok (by omega)),
    atBit_pos]
  omega

theorem stdFind_atBit (h : p ≤ q) (hq : q < 2 ^ 60) :
    stdFind m (atBit p) (atBit q) v = atBit (findBit m v p (q - p)) := by
  have hdata : (atBit p).mData ≤ p := atBit_data_le
  have hfind := stdFindLoop_pos (m := m) (v := v) (n := q - p) (atBit_ok (show p < 2 ^ 60 by omega))
    (by omega)
  rw [stdFind, atBit_pos, atBit_pos]
  exact eq_atBit hfind.1 (by rw [hfind.2, atBit_pos])

end Aufs
