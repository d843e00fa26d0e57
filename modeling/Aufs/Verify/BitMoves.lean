import Aufs.Mkfs.BitIterator
import Mathlib.Logic.Function.Iterate

/-! Moves of a bit iterator as moves of its bit position. `++`, `--` and `operator-` between
iterators compute modulo the `2 ^ 67` bits the addresses number. `advance` divides a signed
distance by the unsigned `Bits`, so a move into an earlier byte lands `2 ^ 61` bytes off. -/

namespace Aufs
open Word

namespace BitIterator

/-- The position `d` bits on is inside the address range. -/
def Reaches (it : BitIterator) (d : Int) : Prop :=
  0 ≤ (it.pos : Int) + d ∧ (it.pos : Int) + d < 2 ^ 67

theorem Valid.offset_eq {it : BitIterator} (h : it.Valid) : (it.mOffset : Int) = it.pos % 8 := by
  have ho := h.offset
  simp only [pos, Bits] at *
  omega

/-! ## One operation each -/

theorem decrement_atPos : (atPos p).decrement = atPos (p - 1) := by
  by_cases hfirst : (atPos p).mOffset = 0
  · rw [decrement, if_pos hfirst]
    simp only [atPos, atBit, Bits, u64, mk.injEq] at hfirst ⊢
    omega
  · rw [decrement, if_neg hfirst]
    simp only [atPos, atBit, Bits, mk.injEq] at hfirst ⊢
    omega

theorem increment_iterate : increment^[n] (atPos p) = atPos (p + n) := by
  induction n with
  | zero => simp only [Function.iterate_zero, id, Int.natCast_zero, Int.add_zero]
  | succ n ih =>
    rw [Function.iterate_succ_apply', ih, increment_atPos]
    push_cast
    rw [Int.add_assoc]

theorem decrement_iterate : decrement^[n] (atPos p) = atPos (p - n) := by
  induction n with
  | zero => simp only [Function.iterate_zero, id, Int.natCast_zero, Int.sub_zero]
  | succ n ih =>
    rw [Function.iterate_succ_apply', ih, decrement_atPos]
    push_cast
    rw [Int.sub_sub]

theorem lt_iff {it it' : BitIterator} (h : it.Valid) (h' : it'.Valid) :
    it.lt it' = true ↔ it.pos < it'.pos := by
  have ho := h.offset
  have ho' := h'.offset
  simp only [lt, pos, Bits, Bool.or_eq_true, Bool.and_eq_true, decide_eq_true_eq, beq_iff_eq] at *
  omega

theorem eq_iff {it it' : BitIterator} (h : it.Valid) (h' : it'.Valid) :
    it.eq it' = true ↔ it.pos = it'.pos := by
  have ho := h.offset
  have ho' := h'.offset
  simp only [eq, pos, Bits, Bool.and_eq_true, beq_iff_eq] at *
  omega

/-! ## Moving by a distance -/

/-- What the operations promise of a move of `it` by `d`. -/
structure Faithful (it : BitIterator) (d : Int) : Prop where
  advance : (it.advance d).mOffset < Bits ∧ ((it.advance d).pos : Int) = it.pos + d
  sub : (it.sub (-d)).mOffset < Bits ∧ ((it.sub (-d)).pos : Int) = it.pos + d
  forward : 0 ≤ d → it.advance d = increment^[d.toNat] it
  backward : d ≤ 0 → it.advance d = decrement^[(-d).toNat] it
  distance : (it.advance d).distance it = d

theorem sub_neg (hd : IsPtrdiff d) : sub it (-d) = advance it d := by
  obtain ⟨hlo, hhi⟩ := hd
  have hneg : Int.bmod (- -d) (2 ^ 64) = d := by
    rw [Int.neg_neg, Int.bmod_eq_of_le]
    · omega
    · omega
  rw [sub, hneg]

theorem goesBack_eq_zero : goesBack p d = 0 ↔ 0 ≤ p % 8 + d := by
  unfold goesBack
  split <;> omega

theorem Valid.iterate_eq {it : BitIterator} (h : it.Valid) (n : Nat) :
    increment^[n] it = atPos (it.pos + n) ∧ decrement^[n] it = atPos (it.pos - n) := by
  constructor
  · conv => lhs; rw [h.eq_atPos]
    exact increment_iterate
  · conv => lhs; rw [h.eq_atPos]
    exact decrement_iterate

/-- The error of `2 ^ 64` bits is invisible to the difference, which is taken modulo `2 ^ 64`. -/
theorem distance_advance {it : BitIterator} (h : it.Valid) (hd : IsPtrdiff d) :
    (it.advance d).distance it = d := by
  rw [h.advance_eq hd]
  conv => lhs; rw [h.eq_atPos]
  refine distance_atPos hd ?_
  have hlt := h.pos_lt
  rw [atPos_pos (by omega) (by omega)]
  omega

theorem faithful_iff {it : BitIterator} (h : it.Valid) (hd : IsPtrdiff d) (hr : it.Reaches d) :
    it.Faithful d ↔ 0 ≤ (it.mOffset : Int) + d := by
  obtain ⟨hlo, hhi⟩ := hr
  rw [h.offset_eq, ← goesBack_eq_zero]
  constructor
  · intro H
    have hpos := H.advance.2
    rw [h.advance_eq hd] at hpos
    by_contra hne
    have hone : goesBack it.pos d = 1 := by
      unfold goesBack at hne ⊢
      split at hne
      · rw [if_pos ‹_›]
      · exact absurd rfl hne
    rw [hone, atPos, atBit_pos] at hpos
    omega
  · intro hzero
    have hadv : it.advance d = atPos (it.pos + d) := by
      rw [h.advance_eq hd, hzero, Int.natCast_zero, Int.mul_zero, Int.add_zero]
    have hmove : (it.advance d).mOffset < Bits ∧ ((it.advance d).pos : Int) = it.pos + d := by
      rw [hadv]
      exact ⟨atPos_valid.offset, atPos_pos hlo hhi⟩
    refine ⟨hmove, ?_, ?_, ?_, distance_advance h hd⟩
    · rwa [sub_neg hd]
    · intro hnonneg
      rw [hadv, (h.iterate_eq _).1, Int.toNat_of_nonneg hnonneg]
    · intro hnonpos
      rw [hadv, (h.iterate_eq _).2, Int.toNat_of_nonneg (by omega), Int.sub_neg]

/-- Both ways to the same position agree when they go back into an earlier byte equally often. -/
theorem advance_advance_iff {it : BitIterator} (h : it.Valid) (ha : IsPtrdiff a)
    (hb : IsPtrdiff b) (hab : IsPtrdiff (a + b)) :
    (it.advance a).advance b = it.advance (a + b) ↔
      goesBack it.pos a + goesBack (it.pos + a) b = goesBack it.pos (a + b) := by
  have hle : ∀ p d, goesBack p d ≤ 1 := by
    intro p d
    unfold goesBack
    split <;> omega
  have hshift : goesBack (it.pos + a + 2 ^ 64 * goesBack it.pos a) b =
      goesBack (it.pos + a) b := by
    unfold goesBack
    congr 1
    rw [eq_iff_iff]
    split <;> omega
  rw [h.advance_eq ha, advance_atPos hb, hshift, h.advance_eq hab, atPos_inj]
  have h₁ := hle it.pos a
  have h₂ := hle (it.pos + a) b
  have h₃ := hle it.pos (a + b)
  omega

end BitIterator

open BitIterator

/-- **Iterators and positions**. A move is faithful unless it goes back into an earlier byte; two
moves add up when both ways go back equally often; the difference and the order never fail. -/
theorem iterator_moves_iff {it it' : BitIterator} {d a b : Int} (hit : it.Valid)
    (hit' : it'.Valid) (hd : IsPtrdiff d) (hr : it.Reaches d) (ha : IsPtrdiff a)
    (hb : IsPtrdiff b) (hab : IsPtrdiff (a + b)) :
    (it.Faithful d ↔ 0 ≤ (it.mOffset : Int) + d) ∧
      ((it.advance a).advance b = it.advance (a + b) ↔
        goesBack it.pos a + goesBack (it.pos + a) b = goesBack it.pos (a + b)) ∧
      (it.advance d).distance it = d ∧
      (it.lt it' = true ↔ it.pos < it'.pos) ∧
      (it.eq it' = true ↔ it.pos = it'.pos) := by
  refine ⟨?_, ?_, ?_, ?_, ?_⟩
  · exact faithful_iff hit hd hr
  · exact advance_advance_iff hit ha hb hab
  · exact distance_advance hit hd
  · exact lt_iff hit hit'
  · exact eq_iff hit hit'

/-- From the start of a byte one bit back: `--` reaches the byte before it, `advance` does not. -/
theorem byte_start_back_one :
    Valid { mData := 1, mOffset := 0 } ∧ IsPtrdiff (-1) ∧
      Reaches { mData := 1, mOffset := 0 } (-1) ∧
      advance { mData := 1, mOffset := 0 } (-1) = { mData := 2 ^ 61, mOffset := 7 } ∧
      decrement { mData := 1, mOffset := 0 } = { mData := 0, mOffset := 7 } ∧
      ¬Faithful { mData := 1, mOffset := 0 } (-1) := by
  have hvalid : Valid { mData := 1, mOffset := 0 } := ⟨by decide, by decide⟩
  have hd : IsPtrdiff (-1) := ⟨by decide, by decide⟩
  have hr : Reaches { mData := 1, mOffset := 0 } (-1) := ⟨by decide, by decide⟩
  refine ⟨hvalid, hd, hr, by decide, by decide, ?_⟩
  rw [faithful_iff hvalid hd hr]
  decide

/-- Forward into the next byte, and there back to its start. -/
theorem forward_and_back :
    Faithful { mData := 1, mOffset := 3 } 9 ∧
      (advance { mData := 1, mOffset := 3 } 9).advance (-4) =
        advance { mData := 1, mOffset := 3 } 5 := by
  have hit : Valid { mData := 1, mOffset := 3 } := ⟨by decide, by decide⟩
  have h := iterator_moves_iff (d := 9) (a := 9) (b := -4) hit hit ⟨by decide, by decide⟩
    ⟨by decide, by decide⟩ ⟨by decide, by decide⟩ ⟨by decide, by decide⟩ ⟨by decide, by decide⟩
  exact ⟨h.1.mpr (by decide), h.2.1.mpr (by decide)⟩

end Aufs
