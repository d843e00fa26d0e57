import Aufs.Lib.Bytes

/-! Records in memory: words of any width at fixed offsets. Storing the fields of a record one
after the other leaves each of them readable if they share no byte, and changes nothing if memory
holds them already. -/

namespace Bytes

/-- A word of `width` bytes at `off`, and the value to store there. -/
structure Field where
  off : Nat
  width : Nat
  value : Nat

/-- Where a field lies. -/
def Field.span (f : Field) : Nat × Nat := (f.off, f.width)

/-- The words at `s` and `t` share no byte. -/
def Apart (s t : Nat × Nat) : Prop := s.1 + s.2 ≤ t.1 ∨ t.1 + t.2 ≤ s.1

instance : DecidableRel Apart :=
  fun s t => inferInstanceAs (Decidable (s.1 + s.2 ≤ t.1 ∨ t.1 + t.2 ≤ s.1))

def putFields (o : ByteOrder) (m : Mem) (fs : List Field) : Mem :=
  fs.foldl (fun m f => putWord o m f.off f.width f.value) m

theorem putFields_cons : putFields o m (f :: fs) =
    putFields o (putWord o m f.off f.width f.value) fs := rfl

theorem getWord_putFields_apart {fs : List Field} (h : ∀ f ∈ fs, Apart (off, n) f.span) :
    getWord o' (putFields o m fs) off n = getWord o' m off n := by
  induction fs generalizing m with
  | nil => rfl
  | cons f fs ih =>
    rw [putFields_cons, ih fun g hg => h g (List.mem_cons_of_mem _ hg)]
    exact getWord_putWord_disjoint (h f List.mem_cons_self)

/-- A field reads back what was stored, cut to its width. -/
theorem getWord_putFields {fs : List Field} {f : Field}
    (hapart : (fs.map Field.span).Pairwise Apart) (hf : f ∈ fs) :
    getWord o (putFields o m fs) f.off f.width = f.value % 256 ^ f.width := by
  induction fs generalizing m with
  | nil => cases hf
  | cons g fs ih =>
    obtain ⟨hhead, htail⟩ := List.pairwise_cons.mp hapart
    rw [putFields_cons]
    rcases List.mem_cons.mp hf with rfl | hf
    · rw [getWord_putFields_apart fun g hg => hhead _ (List.mem_map_of_mem hg)]
      exact getWord_putWord_same
    · exact ih htail hf

/-! ## Words that are there already -/

theorem leBytes_leValue (bs : List Byte) : leBytes bs.length (leValue bs) = bs := by
  induction bs with
  | nil => rfl
  | cons b bs ih =>
    have hbyte : BitVec.ofNat 8 (b.toNat + 256 * leValue bs) = b := by
      apply BitVec.eq_of_toNat_eq
      have := b.isLt
      rw [BitVec.toNat_ofNat]
      omega
    have hrest : (b.toNat + 256 * leValue bs) / 256 = leValue bs := by
      have := b.isLt
      omega
    rw [List.length_cons, leBytes, leValue, hbyte, hrest, ih]

theorem leValue_mod (bs : List Byte) : leValue bs % 256 ^ bs.length = leValue bs := by
  rw [← leValue_leBytes, leBytes_leValue]

/-- A word is a value of its width. -/
theorem getWord_mod : getWord o m off n % 256 ^ n = getWord o m off n := by
  have hlen : (peek m off n).length = n := peek_length
  cases o with
  | little =>
    have h := leValue_mod (peek m off n)
    rwa [hlen] at h
  | big =>
    have h := leValue_mod (peek m off n).reverse
    rwa [List.length_reverse, hlen] at h

/-- Only the low bytes of a value are stored. -/
theorem leBytes_mod (n v : Nat) : leBytes n (v % 256 ^ n) = leBytes n v := by
  induction n generalizing v with
  | zero => rfl
  | succ n ih =>
    have hlow : BitVec.ofNat 8 (v % 256 ^ (n + 1)) = BitVec.ofNat 8 v := by
      apply BitVec.eq_of_toNat_eq
      rw [BitVec.toNat_ofNat, BitVec.toNat_ofNat]
      exact Nat.mod_mod_of_dvd v (Dvd.intro_left _ (Nat.pow_succ 256 n).symm)
    have hhigh : v % 256 ^ (n + 1) / 256 = v / 256 % 256 ^ n := by
      rw [Nat.pow_succ', Nat.mod_mul_right_div_self]
    rw [leBytes, leBytes, hlow, hhigh, ih]

theorem ByteOrder.bytes_of_value (o : ByteOrder) (h : v % 256 ^ bs.length = o.value bs) :
    o.bytes bs.length v = bs := by
  cases o with
  | little => rw [bytes, ← leBytes_mod, h, value, leBytes_leValue]
  | big =>
    rw [bytes, ← leBytes_mod, h, value, ← List.length_reverse, leBytes_leValue,
      List.reverse_reverse]

theorem putWord_self (h : v % 256 ^ n = getWord o m off n) : putWord o m off n v = m := by
  have hbytes : o.bytes (peek m off n).length v = peek m off n :=
    o.bytes_of_value (by rwa [peek_length])
  rw [peek_length] at hbytes
  funext a
  by_cases ha : off ≤ a ∧ a < off + n
  · obtain ⟨k, rfl⟩ := Nat.exists_eq_add_of_le ha.1
    rw [putWord, hbytes, poke_peek (by omega)]
  · exact putWord_outside (by omega)

/-- Storing what is there changes nothing. -/
theorem putFields_self {fs : List Field}
    (h : ∀ f ∈ fs, f.value % 256 ^ f.width = getWord o m f.off f.width) : putFields o m fs = m := by
  induction fs with
  | nil => rfl
  | cons f fs ih =>
    rw [putFields_cons, putWord_self (h f List.mem_cons_self)]
    exact ih fun g hg => h g (List.mem_cons_of_mem _ hg)

end Bytes
