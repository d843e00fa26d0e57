import Aufs.Lib.Bytes
import Mathlib.Data.Nat.Bitwise

/-! Bits of words. An array of words of `w` bytes numbers its bits word by word: bit `i` is bit
`i % (8 * w)` of word `i / (8 * w)`. With the least significant byte first these are the bits in the
order of the bytes; with the most significant byte first they are so once the bytes of each word are
reversed. -/

namespace Bytes

variable {m m' : Mem} {o : ByteOrder} {w : Nat}

/-- Memory is its bits. -/
theorem ext_bit (h : ∀ i, bit m i = bit m' i) : m = m' := by
  funext a
  refine BitVec.eq_of_getLsbD_eq fun k hk => ?_
  have hbit := h (8 * a + k)
  have hdiv : (8 * a + k) / 8 = a := by omega
  have hmod : (8 * a + k) % 8 = k := by omega
  rwa [bit, bit, hdiv, hmod] at hbit

/-- Bit `i` of a number is in byte `i / 8` of it. -/
theorem testBit_leValue (bs : List Byte) (i : Nat) :
    (leValue bs).testBit i = (bs.getD (i / 8) 0).getLsbD (i % 8) := by
  induction bs generalizing i with
  | nil => simp [leValue]
  | cons b bs ih =>
    have hb : b.toNat < 2 ^ 8 := b.isLt
    rw [leValue, Nat.add_comm, show (256 : Nat) = 2 ^ 8 from rfl,
      Nat.testBit_two_pow_mul_add _ hb]
    split
    · next hlt =>
      rw [Nat.div_eq_of_lt hlt, Nat.mod_eq_of_lt hlt]
      rfl
    · next hge =>
      have hdiv : i / 8 = (i - 8) / 8 + 1 := by omega
      have hmod : i % 8 = (i - 8) % 8 := by omega
      rw [ih, hdiv, hmod]
      rfl

theorem leValue_lt (bs : List Byte) : leValue bs < 256 ^ bs.length := by
  induction bs with
  | nil => exact Nat.one_pos
  | cons b bs ih =>
    have hb : b.toNat < 256 := b.isLt
    rw [leValue, List.length_cons, Nat.pow_succ']
    omega

theorem getWord_lt (o : ByteOrder) (m : Mem) (off n : Nat) : getWord o m off n < 256 ^ n := by
  cases o with
  | little =>
    have h := leValue_lt (peek m off n)
    rwa [peek_length] at h
  | big =>
    have h := leValue_lt (peek m off n).reverse
    rwa [List.length_reverse, peek_length] at h

/-- A search passes bits that it does not look for. -/
theorem findBit_skip (h : ∀ i, start ≤ i → i < start + k → bit m i ≠ v) :
    findBit m v start (k + n) = findBit m v (start + k) n := by
  induction k generalizing start with
  | zero => rw [Nat.zero_add, Nat.add_zero]
  | succ k ih =>
    have hstart := h start (Nat.le_refl _) (by omega)
    rw [Nat.add_right_comm, findBit, if_neg hstart,
      ih fun i h₁ h₂ => h i (by omega) (by omega), Nat.add_assoc, Nat.add_comm 1]

/-- Bit `i` of the array of words. -/
def wordBit (o : ByteOrder) (w : Nat) (m : Mem) (i : Nat) : Bool :=
  (getWord o m (i / (8 * w) * w) w).testBit (i % (8 * w))

/-- The word with bit `i` is stored again with that bit set. -/
def setWordBit (o : ByteOrder) (w : Nat) (m : Mem) (i : Nat) : Mem :=
  putWord o m (i / (8 * w) * w) w (getWord o m (i / (8 * w) * w) w ||| 2 ^ (i % (8 * w)))

/-- The first clear bit of `start, start + 1, ..`; `start + n` when none of the first `n` is. -/
def findZeroBit (o : ByteOrder) (w : Nat) (m : Mem) (start : Nat) : Nat → Nat
  | 0 => start
  | n + 1 => if wordBit o w m start = false then start else findZeroBit o w m (start + 1) n

/-! ## Reversed bytes -/

/-- The bytes of each aligned group of `g` reversed. -/
def swapBytes (g : Nat) (m : Mem) : Mem := fun a => m (a / g * g + (g - 1 - a % g))

@[simp] theorem swapBytes_one : swapBytes 1 m = m := by
  funext a
  simp [swapBytes, Nat.mod_one]

/-- How many bytes stand in reversed order: those of a word, with the most significant one first. -/
def ByteOrder.group : ByteOrder → Nat → Nat
  | little, _ => 1
  | big, w => w

theorem getWord_testBit (hk : k < 8 * w) (off : Nat) :
    (getWord o m off w).testBit k =
      (m (off + if o = .little then k / 8 else w - 1 - k / 8)).getLsbD (k % 8) := by
  have hlt : k / 8 < w := by omega
  cases o with
  | little =>
    change (leValue (peek m off w)).testBit k = _
    rw [testBit_leValue, List.getD_eq_getElem?_getD, peek_getElem? hlt]
    rfl
  | big =>
    change (leValue (peek m off w).reverse).testBit k = _
    rw [testBit_leValue, List.getD_eq_getElem?_getD, List.getElem?_reverse (by rwa [peek_length]),
      peek_length, peek_getElem? (by omega)]
    rfl

/-- The bits of words are those of the bytes, each word reversed if its first byte is the most
significant one. -/
theorem wordBit_eq (hw : 0 < w) : wordBit o w m i = bit (swapBytes (o.group w) m) i := by
  have hpos : 0 < 8 * w := by omega
  have hword : i / (8 * w) = i / 8 / w := (Nat.div_div_eq_div_mul ..).symm
  have hbyte : i % (8 * w) / 8 = i / 8 % w := Nat.mod_mul_right_div_self ..
  have hbit : i % (8 * w) % 8 = i % 8 := Nat.mod_mul_right_mod ..
  rw [wordBit, getWord_testBit (Nat.mod_lt _ hpos), hword, hbyte, hbit]
  cases o with
  | little =>
    have hsum := Nat.div_add_mod' (i / 8) w
    simp only [if_true, hsum, ByteOrder.group, swapBytes_one]
    rfl
  | big => rfl

theorem wordBit_setWordBit (hw : 0 < w) :
    wordBit o w (setWordBit o w m i) j = if j = i then true else wordBit o w m j := by
  have hpos : 0 < 8 * w := by omega
  have hi := Nat.div_add_mod i (8 * w)
  have hj := Nat.div_add_mod j (8 * w)
  have hlt := Nat.mod_lt j hpos
  unfold wordBit setWordBit
  by_cases hword : j / (8 * w) = i / (8 * w)
  · have hpow : 256 ^ w = 2 ^ (8 * w) := by rw [Nat.pow_mul]
    rw [hword, getWord_putWord_same, hpow, Nat.testBit_mod_two_pow, Nat.testBit_or,
      Nat.testBit_two_pow]
    rw [hword] at hj
    have heq : i % (8 * w) = j % (8 * w) ↔ j = i := by omega
    simp only [hlt, decide_true, Bool.true_and, heq]
    split
    · simp [*]
    · simp [*]
  · have hne : j ≠ i := fun heq => hword (by rw [heq])
    rw [if_neg hne, getWord_putWord_disjoint]
    rcases Nat.lt_or_gt_of_ne hword with hlt | hgt
    · have := Nat.mul_le_mul_right w hlt
      rw [Nat.succ_mul] at this
      exact .inl this
    · have := Nat.mul_le_mul_right w hgt
      rw [Nat.succ_mul] at this
      exact .inr this

theorem swapBytes_setWordBit (hw : 0 < w) :
    swapBytes (o.group w) (setWordBit o w m i) = setBit (swapBytes (o.group w) m) i true := by
  refine ext_bit fun j => ?_
  rw [← wordBit_eq hw, wordBit_setWordBit hw, bit_setBit, wordBit_eq hw]

theorem findZeroBit_eq (hw : 0 < w) :
    findZeroBit o w m start n = findBit (swapBytes (o.group w) m) false start n := by
  induction n generalizing start with
  | zero => rfl
  | succ n ih => rw [findZeroBit, findBit, wordBit_eq hw, ih]

end Bytes
