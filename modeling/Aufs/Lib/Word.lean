import Mathlib.Tactic.Ring

/-! Conversions between the integer types of C on an LP64 machine, as functions on `Nat` and
`Int`: a value of an unsigned type is its residue, a value of `int` the residue nearest zero. -/

namespace Word

/-- Conversion to a 32-bit unsigned integer. -/
def u32 (n : Nat) : Nat := n % 2 ^ 32

/-- Conversion to a 64-bit unsigned integer. -/
def u64 (n : Nat) : Nat := n % 2 ^ 64

/-- Conversion of a signed value to a 64-bit unsigned integer. -/
def u64OfInt (x : Int) : Nat := (x % 2 ^ 64).toNat

/-- Conversion to a 32-bit `int`. -/
def i32 (x : Int) : Int := Int.bmod x (2 ^ 32)

@[simp] theorem u32_of_lt (h : n < 2 ^ 32) : u32 n = n := Nat.mod_eq_of_lt h

@[simp] theorem u64_of_lt (h : n < 2 ^ 64) : u64 n = n := Nat.mod_eq_of_lt h

theorem u32_lt : u32 n < 2 ^ 32 := Nat.mod_lt _ (by decide)

theorem i32_of_lt {n : Nat} (h : n < 2 ^ 31) : i32 n = n := by
  apply Int.bmod_eq_of_le
  · omega
  · omega

theorem i32_of_ge {n : Nat} (h₁ : 2 ^ 31 ≤ n) (h₂ : n < 2 ^ 32) : i32 n = n - 2 ^ 32 := by
  unfold i32
  rw [Int.bmod_def]
  omega

/-- A block of `2 ^ 31` values past the positive range comes out negative. -/
theorem i32_neg {n : Nat} (h₁ : 2 ^ 31 ≤ n) (h₂ : n < 2 ^ 32) : i32 n < 0 := by
  rw [i32_of_ge h₁ h₂]
  omega

theorem i32_bounds (x : Int) : -2 ^ 31 ≤ i32 x ∧ i32 x < 2 ^ 31 := by
  unfold i32
  rw [Int.bmod_def]
  split <;> omega

/-- Reduction modulo `2 ^ 32` survives the conversion to `int`. -/
theorem i32_emod (x : Int) : i32 x % 2 ^ 32 = x % 2 ^ 32 := by
  unfold i32
  rw [Int.bmod_def]
  split <;> omega

theorem u64OfInt_natCast {n : Nat} (h : n < 2 ^ 64) : u64OfInt n = n := by
  unfold u64OfInt
  omega

theorem u64OfInt_ne_zero {x : Int} (h : x ≠ 0) (h₁ : -2 ^ 31 ≤ x) (h₂ : x < 2 ^ 31) :
    u64OfInt x ≠ 0 := by
  unfold u64OfInt
  omega

theorem u64OfInt_inj {a b : Int} (ha : -2 ^ 31 ≤ a ∧ a < 2 ^ 31) (hb : -2 ^ 31 ≤ b ∧ b < 2 ^ 31) :
    u64OfInt a = u64OfInt b ↔ a = b := by
  constructor
  · intro h
    unfold u64OfInt at h
    omega
  · intro h
    rw [h]

/-- Returned as an `int` and stored with its sign extended, a number is kept modulo `2 ^ 32`. -/
theorem u64OfInt_i32_inj {x y : Nat} :
    u64OfInt (i32 x) = u64OfInt (i32 y) ↔ x % 2 ^ 32 = y % 2 ^ 32 := by
  have hx := i32_bounds x
  have hy := i32_bounds y
  have hxm := i32_emod x
  have hym := i32_emod y
  rw [u64OfInt_inj hx hy]
  generalize i32 (x : Int) = a at *
  generalize i32 (y : Int) = b at *
  constructor
  · intro h
    omega
  · intro h
    omega

end Word
