import Aufs.Lib.Record
import Mathlib.Data.Set.Basic

/-! Changes of a memory that store values of their own at places of their own. Doing such a change
twice, or another one at the same places before it, makes no difference. -/

section
variable {α β : Type*} {S T : Set α} {f g : (α → β) → α → β} {m m' : α → β}

/-- `f` changes a memory at the addresses in `S` only, and what it stores there does not depend on
the memory. -/
structure Patches (S : Set α) (f : (α → β) → α → β) : Prop where
  frame : ∀ m, ∀ a ∉ S, f m a = m a
  fixed : ∀ m m', ∀ a ∈ S, f m a = f m' a

namespace Patches

theorem comp (hg : Patches T g) (hf : Patches S f) : Patches (S ∪ T) fun m => g (f m) where
  frame m a ha := by
    rw [hg.frame _ a fun h => ha (.inr h), hf.frame m a fun h => ha (.inl h)]
  fixed m m' a ha := by
    by_cases hT : a ∈ T
    · exact hg.fixed _ _ a hT
    · rw [hg.frame _ a hT, hg.frame _ a hT]
      exact hf.fixed m m' a (ha.resolve_right hT)

/-- The result depends on the memory only where it is left alone. -/
theorem congr (hf : Patches S f) (h : ∀ a ∉ S, m a = m' a) : f m = f m' := by
  funext a
  by_cases ha : a ∈ S
  · exact hf.fixed m m' a ha
  · rw [hf.frame m a ha, hf.frame m' a ha, h a ha]

/-- What a patch overwrites need not be there. -/
theorem absorb (hg : Patches T g) (hf : Patches S f) (hsub : S ⊆ T) : g (f m) = g m :=
  hg.congr fun a ha => hf.frame m a fun h => ha (hsub h)

end Patches
end

namespace Bytes

/-- The bytes of some words. -/
def spanBytes (spans : List (Nat × Nat)) : Set Nat := {a | ∃ s ∈ spans, s.1 ≤ a ∧ a < s.1 + s.2}

theorem mem_spanBytes : a ∈ spanBytes spans ↔ ∃ s ∈ spans, s.1 ≤ a ∧ a < s.1 + s.2 := Iff.rfl

theorem spanBytes_append : spanBytes (spans ++ spans') = spanBytes spans ∪ spanBytes spans' := by
  ext a
  simp only [mem_spanBytes, Set.mem_union, List.mem_append, or_and_right, exists_or]

/-- One patch after another. -/
theorem patches_append (hf : Patches (spanBytes spans) f) (hg : Patches (spanBytes spans') g) :
    Patches (spanBytes (spans ++ spans')) fun m : Mem => g (f m) := by
  rw [spanBytes_append]
  exact hg.comp hf

theorem patches_poke (off : Nat) (bs : List Byte) :
    Patches (spanBytes [(off, bs.length)]) (poke · off bs) where
  frame m a ha := poke_outside (by simp [spanBytes] at ha; omega)
  fixed m m' a ha := by
    obtain ⟨_, hs, h₁, h₂⟩ := ha
    cases List.mem_singleton.mp hs
    simp only [poke]
    rw [if_pos ⟨h₁, h₂⟩, if_pos ⟨h₁, h₂⟩]

/-- Bytes stored in a copy of a window, and the window put back. -/
theorem poke_window {m : Mem} {base n : Nat} (h : off + bs.length ≤ n) :
    (fun a => if base ≤ a ∧ a < base + n then poke (fun k => m (base + k)) off bs (a - base)
      else m a) = poke m (base + off) bs := by
  funext a
  by_cases hin : base ≤ a ∧ a < base + n
  · obtain ⟨k, rfl⟩ := Nat.exists_eq_add_of_le hin.1
    rw [if_pos hin, Nat.add_sub_cancel_left]
    unfold poke
    rw [show base + k - (base + off) = k - off by omega]
    by_cases hk : off ≤ k ∧ k < off + bs.length
    · rw [if_pos hk, if_pos (by omega)]
    · rw [if_neg hk, if_neg (by omega)]
  · rw [if_neg hin, poke_outside (by omega)]

/-- Storing the fields of a record overwrites their bytes. -/
theorem patches_putFields (o : ByteOrder) (fs : List Field) :
    Patches (spanBytes (fs.map Field.span)) (putFields o · fs) := by
  induction fs with
  | nil =>
    refine ⟨fun _ _ _ => rfl, fun _ _ a ha => ?_⟩
    obtain ⟨_, hs, -⟩ := ha
    cases hs
  | cons f fs ih =>
    have hword : Patches (spanBytes [f.span]) (putWord o · f.off f.width f.value) := by
      have h := patches_poke f.off (o.bytes f.width f.value)
      rwa [ByteOrder.bytes_length] at h
    exact patches_append hword ih

/-- A byte is its bits. -/
theorem byte_eq_of_bits {m m' : Mem} (h : ∀ i < 8, bit m (8 * k + i) = bit m' (8 * k + i)) :
    m k = m' k := by
  apply BitVec.eq_of_getLsbD_eq
  intro i hi
  have hbit := h i hi
  rwa [bit, bit, Nat.mul_add_div (by omega), Nat.mul_add_mod, Nat.div_eq_of_lt hi,
    Nat.mod_eq_of_lt hi, Nat.add_zero] at hbit

end Bytes
