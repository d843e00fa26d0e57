import Aufs.Lib.Bytes
import Mathlib.Data.List.Nodup

/-! Bitmaps that lie in several blocks, read as one row of bits: block `i` of a row with `bits`
bits in a block holds the bits from `i * bits` on. -/

namespace Bytes

/-- Bit `k` of a row with `bits` bits in a block. -/
def rowBit (bits : Nat) (map : Nat → Mem) (k : Nat) : Bool := bit (map (k / bits)) (k % bits)

theorem rowBit_block {bits j : Nat} (hj : j < bits) (map : Nat → Mem) (i : Nat) :
    rowBit bits map (i * bits + j) = bit (map i) j := by
  have hdiv : (i * bits + j) / bits = i := by
    rw [Nat.mul_comm, Nat.mul_add_div (by omega), Nat.div_eq_of_lt hj, Nat.add_zero]
  have hmod : (i * bits + j) % bits = j := by
    rw [Nat.mul_comm, Nat.mul_add_mod, Nat.mod_eq_of_lt hj]
  rw [rowBit, hdiv, hmod]

/-- From `map` to `map'`, the lowest clear bit of the first `n` blocks, `k`, is set and no other
changes. -/
structure Takes (bits n : Nat) (map map' : Nat → Mem) (k : Nat) : Prop where
  lt : k < n * bits
  clear : rowBit bits map k = false
  lowest : ∀ k' < k, rowBit bits map k' = true
  set : ∀ k', rowBit bits map' k' = if k' = k then true else rowBit bits map k'

/-- Every bit of the first `n` blocks is set. -/
def RowFull (bits n : Nat) (map : Nat → Mem) : Prop := ∀ k < n * bits, rowBit bits map k = true

theorem rowFull_iff {bits n : Nat} {map : Nat → Mem} :
    RowFull bits n map ↔ ∀ i < n, ∀ j < bits, bit (map i) j = true := by
  constructor
  · intro h i hi j hj
    rw [← rowBit_block hj map i]
    apply h
    have hmul : (i + 1) * bits ≤ n * bits := Nat.mul_le_mul_right _ hi
    rw [Nat.add_mul, Nat.one_mul] at hmul
    omega
  · intro h k hk
    have hpos : 0 < bits := by
      by_contra h0
      rw [show bits = 0 by omega, Nat.mul_zero] at hk
      omega
    exact h _ (Nat.div_lt_of_lt_mul (by rwa [Nat.mul_comm])) _ (Nat.mod_lt _ hpos)

theorem RowFull.succ {bits i : Nat} {map : Nat → Mem} (h : RowFull bits i map)
    (hblock : ∀ j < bits, bit (map i) j = true) : RowFull bits (i + 1) map := by
  rw [rowFull_iff] at h ⊢
  intro b hb
  rcases Nat.lt_succ_iff_lt_or_eq.mp hb with hlt | rfl
  · exact h b hlt
  · exact hblock

/-- Setting the first clear bit of the first block that has one. -/
theorem takes_of_block {bits n i j : Nat} {map : Nat → Mem} (hi : i < n) (hj : j < bits)
    (hclear : bit (map i) j = false) (hbefore : RowFull bits i map)
    (hlow : ∀ j' < j, bit (map i) j' = true) :
    Takes bits n map (Function.update map i (setBit (map i) j true)) (i * bits + j) := by
  have hmul : (i + 1) * bits ≤ n * bits := Nat.mul_le_mul_right _ hi
  rw [Nat.add_mul, Nat.one_mul] at hmul
  refine ⟨by omega, by rw [rowBit_block hj, hclear], ?_, ?_⟩
  · intro k' hk'
    by_cases hlt : k' < i * bits
    · exact hbefore k' hlt
    · have hk : k' = i * bits + (k' - i * bits) := by omega
      rw [hk, rowBit_block (by omega)]
      exact hlow _ (by omega)
  · intro k'
    have hpos : 0 < bits := by omega
    have hk : k' / bits * bits + k' % bits = k' := by
      rw [Nat.mul_comm]
      exact Nat.div_add_mod ..
    unfold rowBit
    by_cases hblock : k' / bits = i
    · rw [hblock, Function.update_self, bit_setBit]
      have heq : k' % bits = j ↔ k' = i * bits + j := by
        rw [← hblock]
        omega
      simp only [heq]
    · rw [Function.update_of_ne hblock, if_neg]
      rintro rfl
      apply hblock
      rw [Nat.mul_comm, Nat.mul_add_div hpos, Nat.div_eq_of_lt hj, Nat.add_zero]

/-- Taking a bit clears none. -/
theorem Takes.mono {bits n k k' : Nat} {map map' : Nat → Mem} (h : Takes bits n map map' k)
    (hk : rowBit bits map k' = true) : rowBit bits map' k' = true := by
  rw [h.set, hk]
  exact ite_self true

/-- From `map` to `map'`, the bits `ks` are set, which were clear, and no other changes. -/
structure Gains (bits : Nat) (map map' : Nat → Mem) (ks : List Nat) : Prop where
  clear : ∀ k ∈ ks, rowBit bits map k = false
  set : ∀ k, rowBit bits map' k = if k ∈ ks then true else rowBit bits map k

theorem Gains.nil {bits : Nat} {map : Nat → Mem} : Gains bits map map [] := ⟨by simp, by simp⟩

theorem Takes.gains {bits n k : Nat} {map map' : Nat → Mem} (h : Takes bits n map map' k) :
    Gains bits map map' [k] := by
  constructor
  · intro k' hk'
    rw [List.mem_singleton.mp hk']
    exact h.clear
  · intro k'
    simp only [h.set, List.mem_singleton]

theorem Gains.append {bits : Nat} {map map' map'' : Nat → Mem} {ks ks' : List Nat}
    (h : Gains bits map map' ks) (h' : Gains bits map' map'' ks') :
    Gains bits map map'' (ks ++ ks') := by
  constructor
  · intro k hk
    rcases List.mem_append.mp hk with hk | hk
    · exact h.clear k hk
    · -- a bit that was clear in between was clear before
      have hclear := h'.clear k hk
      rw [h.set] at hclear
      split at hclear
      · cases hclear
      · exact hclear
  · intro k
    simp only [h'.set, h.set, List.mem_append]
    by_cases hk : k ∈ ks'
    · simp [hk]
    · simp [hk]

/-- The bits `ks`, taken one after the other: all are set, and none was taken twice. -/
structure Taken (bits : Nat) (map : Nat → Mem) (ks : List Nat) : Prop where
  set : ∀ k ∈ ks, rowBit bits map k = true
  nodup : ks.Nodup

theorem Taken.nil {bits : Nat} {map : Nat → Mem} : Taken bits map [] := ⟨by simp, List.nodup_nil⟩

/-- A bit that is taken next was clear, so it is none of those before. -/
theorem Taken.snoc {bits n k : Nat} {map map' : Nat → Mem} {ks : List Nat}
    (h : Taken bits map ks) (t : Takes bits n map map' k) : Taken bits map' (ks ++ [k]) := by
  constructor
  · intro k' hk'
    rcases List.mem_append.mp hk' with hk' | hk'
    · exact t.mono (h.set k' hk')
    · rw [t.set, if_pos (List.mem_singleton.mp hk')]
  · refine h.nodup.append (List.nodup_singleton k) ?_
    rw [List.disjoint_singleton]
    intro hmem
    cases (h.set k hmem).symm.trans t.clear

end Bytes
