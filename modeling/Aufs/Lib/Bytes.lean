import Mathlib.Data.Nat.Basic
import Mathlib.Logic.Function.Basic
import Mathlib.Tactic.Ring

/-! Byte-addressed memory: copying byte strings in and out, fixed-width words in either byte
order, and bitmaps in little-endian bit numbering (bit `i` is bit `i % 8` of byte `i / 8`).

Memory is a total function, so a region of it (a block, a page, a slot) is memory seen from
another origin, and every frame fact is a statement about addresses. -/

namespace Bytes

abbrev Byte := BitVec 8

/-- Memory, by byte address. -/
abbrev Mem := Nat → Byte

/-! ## Byte strings -/

/-- The `n` bytes at `off`. -/
def peek (m : Mem) (off n : Nat) : List Byte := (List.range n).map fun k => m (off + k)

/-- `m` with the bytes `bs` stored from `off` on. -/
def poke (m : Mem) (off : Nat) (bs : List Byte) : Mem := fun a =>
  if off ≤ a ∧ a < off + bs.length then bs.getD (a - off) 0 else m a

@[simp] theorem peek_length : (peek m off n).length = n := by simp [peek]

theorem peek_getElem? (h : k < n) : (peek m off n)[k]? = some (m (off + k)) := by
  simp [peek, h]

theorem poke_outside (h : a < off ∨ off + bs.length ≤ a) : poke m off bs a = m a := by
  rw [poke, if_neg (by omega)]

theorem poke_inside (h : k < bs.length) : poke m off bs (off + k) = bs[k] := by
  rw [poke, if_pos (by omega), Nat.add_sub_cancel_left]
  simp [h]

/-- Bytes copied from another memory. -/
theorem poke_peek (h : k < n) : poke m off (peek m' off' n) (off + k) = m' (off' + k) := by
  rw [poke_inside (by rwa [peek_length])]
  simp [peek]

theorem peek_congr (h : ∀ k < n, m (off + k) = m' (off' + k)) : peek m off n = peek m' off' n := by
  simp only [peek]
  apply List.map_congr_left
  intro k hk
  exact h k (List.mem_range.mp hk)

theorem peek_poke_same : peek (poke m off bs) off bs.length = bs := by
  apply List.ext_getElem (by simp)
  intro k h₁ h₂
  simp only [peek, List.getElem_map, List.getElem_range]
  exact poke_inside h₂

theorem peek_poke_disjoint (h : off' + n ≤ off ∨ off + bs.length ≤ off') :
    peek (poke m off bs) off' n = peek m off' n :=
  peek_congr fun k hk => poke_outside (by omega)

theorem peek_succ : peek m off (n + 1) = m off :: peek m (off + 1) n := by
  simp only [peek, List.range_succ_eq_map, List.map_cons, List.map_map, Nat.add_zero]
  congr 1
  apply List.map_congr_left
  intro k _
  simp only [Function.comp_apply, Nat.succ_eq_add_one, Nat.add_assoc, Nat.add_comm 1]

theorem take_peek (h : k ≤ n) : (peek m off n).take k = peek m off k := by
  rw [peek, ← List.map_take, List.take_range, Nat.min_eq_left h, peek]

/-- The part of a list in front of the first `z`. -/
theorem takeWhile_ne_iff {α : Type*} [DecidableEq α] {z : α} {xs ys : List α} (h0 : z ∉ ys) :
    xs.takeWhile (· ≠ z) = ys ↔
      xs.take ys.length = ys ∧ (ys.length < xs.length → xs[ys.length]? = some z) := by
  induction xs generalizing ys with
  | nil => simp
  | cons x xs ih =>
    cases ys with
    | nil => by_cases hx : x = z <;> simp [hx]
    | cons y ys =>
      have hy : z ≠ y := fun h => h0 (h ▸ List.mem_cons_self)
      have ih := ih fun h => h0 (List.mem_cons_of_mem _ h)
      simp only [ne_eq, decide_not] at ih
      by_cases hx : x = z
      · subst hx
        simp [hy]
      · simp [hx, ih, and_assoc]

/-! ## Words -/

/-- The `n` low bytes of `v`, least significant first. -/
def leBytes : Nat → Nat → List Byte
  | 0, _ => []
  | n + 1, v => BitVec.ofNat 8 v :: leBytes n (v / 256)

/-- The number with the given bytes, least significant first. -/
def leValue : List Byte → Nat
  | [] => 0
  | b :: bs => b.toNat + 256 * leValue bs

@[simp] theorem leBytes_length : (leBytes n v).length = n := by
  induction n generalizing v with
  | zero => rfl
  | succ n ih => simp [leBytes, ih]

theorem leValue_leBytes : leValue (leBytes n v) = v % 256 ^ n := by
  induction n generalizing v with
  | zero => simp [leBytes, leValue, Nat.mod_one]
  | succ n ih =>
    have byte : (BitVec.ofNat 8 v).toNat = v % 256 := by simp
    rw [leBytes, leValue, ih, byte, Nat.pow_succ', Nat.mod_mul]

inductive ByteOrder where
  | little
  | big
  deriving DecidableEq, Repr

namespace ByteOrder

/-- The `n` bytes of `v` as they lie in memory. -/
def bytes : ByteOrder → Nat → Nat → List Byte
  | little, n, v => leBytes n v
  | big, n, v => (leBytes n v).reverse

def value : ByteOrder → List Byte → Nat
  | little, bs => leValue bs
  | big, bs => leValue bs.reverse

@[simp] theorem bytes_length (o : ByteOrder) : (o.bytes n v).length = n := by
  cases o <;> simp [bytes]

theorem value_bytes (o : ByteOrder) : o.value (o.bytes n v) = v % 256 ^ n := by
  cases o <;> simp [bytes, value, leValue_leBytes]

end ByteOrder

/-- The word of `n` bytes at `off`. -/
def getWord (o : ByteOrder) (m : Mem) (off n : Nat) : Nat := o.value (peek m off n)

def putWord (o : ByteOrder) (m : Mem) (off n v : Nat) : Mem := poke m off (o.bytes n v)

theorem peek_putWord_same : peek (putWord o m off n v) off n = o.bytes n v := by
  have h : peek (poke m off (o.bytes n v)) off (o.bytes n v).length = o.bytes n v := peek_poke_same
  rwa [ByteOrder.bytes_length] at h

/-- A word read in another byte order than it was stored in. -/
theorem getWord_putWord_mixed :
    getWord o' (putWord o m off n v) off n = o'.value (o.bytes n v) := by
  rw [getWord, peek_putWord_same]

@[simp] theorem getWord_putWord_same :
    getWord o (putWord o m off n v) off n = v % 256 ^ n := by
  rw [getWord_putWord_mixed, ByteOrder.value_bytes]

theorem getWord_putWord_disjoint (h : off' + n' ≤ off ∨ off + n ≤ off') :
    getWord o' (putWord o m off n v) off' n' = getWord o' m off' n' := by
  rw [getWord, putWord, peek_poke_disjoint (by simpa using h), getWord]

theorem putWord_outside (h : a < off ∨ off + n ≤ a) : putWord o m off n v a = m a :=
  poke_outside (by simpa using h)

theorem getWord_poke_disjoint (h : off' + n ≤ off ∨ off + bs.length ≤ off') :
    getWord o (poke m off bs) off' n = getWord o m off' n := by
  rw [getWord, peek_poke_disjoint h, getWord]

/-! ## Bitmaps -/

def bit (m : Mem) (i : Nat) : Bool := (m (i / 8)).getLsbD (i % 8)

/-- The byte with bit `k` made `v`. -/
def byteSet (b : Byte) (k : Nat) (v : Bool) : Byte :=
  if v then b ||| BitVec.twoPow 8 k else b &&& ~~~BitVec.twoPow 8 k

def setBit (m : Mem) (i : Nat) (v : Bool) : Mem :=
  Function.update m (i / 8) (byteSet (m (i / 8)) (i % 8) v)

theorem getLsbD_byteSet (hk : k < 8) (hi : i < 8) :
    (byteSet b k v).getLsbD i = if i = k then v else b.getLsbD i := by
  cases v <;> by_cases h : i = k <;>
    simp [byteSet, h, hi, hk]

@[simp] theorem bit_setBit : bit (setBit m i v) k = if k = i then v else bit m k := by
  unfold bit setBit
  by_cases h : k / 8 = i / 8
  · rw [h, Function.update_self, getLsbD_byteSet (by omega) (by omega)]
    have : k % 8 = i % 8 ↔ k = i := by omega
    simp only [this]
  · rw [Function.update_of_ne h, if_neg (by rintro rfl; exact h rfl)]

theorem byteSet_byteSet : byteSet (byteSet b k v) k v = byteSet b k v := by
  cases v with
  | false => simp only [byteSet, Bool.false_eq_true, if_false, BitVec.and_assoc, BitVec.and_self]
  | true => simp only [byteSet, if_true, BitVec.or_assoc, BitVec.or_self]

@[simp] theorem setBit_setBit : setBit (setBit m i v) i v = setBit m i v := by
  unfold setBit
  rw [Function.update_self, Function.update_idem, byteSet_byteSet]

/-- `n` bits from `start` on made `v`, in ascending order. -/
def fillBits (m : Mem) (start : Nat) : Nat → Bool → Mem
  | 0, _ => m
  | n + 1, v => fillBits (setBit m start v) (start + 1) n v

@[simp] theorem bit_fillBits :
    bit (fillBits m start n v) k = if start ≤ k ∧ k < start + n then v else bit m k := by
  induction n generalizing m start with
  | zero =>
    rw [fillBits, if_neg (by omega)]
  | succ n ih =>
    rw [fillBits, ih, bit_setBit]
    by_cases hk : k = start
    · rw [if_pos hk, ite_self, if_pos (by omega)]
    · have : start + 1 ≤ k ∧ k < start + 1 + n ↔ start ≤ k ∧ k < start + (n + 1) := by omega
      rw [if_neg hk]
      simp only [this]

/-- The first position of `start, start + 1, ..` whose bit is `v`; `start + n` when none of the
first `n` is. -/
def findBit (m : Mem) (v : Bool) (start : Nat) : Nat → Nat
  | 0 => start
  | n + 1 => if bit m start = v then start else findBit m v (start + 1) n

theorem le_findBit : start ≤ findBit m v start n := by
  induction n generalizing start with
  | zero => exact Nat.le_refl _
  | succ n ih =>
    rw [findBit]
    split
    · exact Nat.le_refl _
    · exact Nat.le_of_succ_le ih

theorem findBit_le : findBit m v start n ≤ start + n := by
  induction n generalizing start with
  | zero => exact Nat.le_refl _
  | succ n ih =>
    rw [findBit]
    split
    · omega
    · have hle : findBit m v (start + 1) n ≤ start + 1 + n := ih
      omega

theorem bit_findBit (h : findBit m v start n < start + n) : bit m (findBit m v start n) = v := by
  induction n generalizing start with
  | zero => simp [findBit] at h
  | succ n ih =>
    rw [findBit] at h ⊢
    split
    · assumption
    · next hne =>
      rw [if_neg hne] at h
      exact ih (by omega)

theorem bit_before_findBit (h₁ : start ≤ i) (h₂ : i < findBit m v start n) : bit m i ≠ v := by
  induction n generalizing start with
  | zero => simp [findBit] at h₂; omega
  | succ n ih =>
    rw [findBit] at h₂
    split at h₂
    · omega
    · next hne =>
      by_cases hi : i = start
      · exact hi ▸ hne
      · exact ih (by omega) h₂

theorem findBit_lt (h₁ : start ≤ i) (h₂ : i < start + n) (h : bit m i = v) :
    findBit m v start n < start + n := by
  by_contra hge
  exact bit_before_findBit h₁ (Nat.lt_of_lt_of_le h₂ (Nat.le_of_not_lt hge)) h

theorem findBit_eq (h₁ : start ≤ i) (h₂ : i < start + n) (h : bit m i = v)
    (hmin : ∀ k, start ≤ k → k < i → bit m k ≠ v) : findBit m v start n = i := by
  have hlt := findBit_lt h₁ h₂ h
  rcases Nat.lt_trichotomy (findBit m v start n) i with hb | hb | hb
  · exact absurd (bit_findBit hlt) (hmin _ le_findBit hb)
  · exact hb
  · exact absurd h (bit_before_findBit h₁ hb)

theorem findBit_self (hn : 0 < n) (h : bit m i = v) : findBit m v i n = i :=
  findBit_eq (Nat.le_refl _) (Nat.lt_add_of_pos_right hn) h
    fun _ h₁ h₂ => absurd h₂ (Nat.not_lt.mpr h₁)

end Bytes
