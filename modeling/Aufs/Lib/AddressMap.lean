import Mathlib.Logic.Function.Basic

/-! Address translation. A partial map `addr` from keys to addresses presents a memory as a
family of cells. When `addr` is injective the cells are independent: a store through one key is
seen through that key only, and the memory simulates one variable per key. -/

namespace AddressMap

section
variable {κ α β : Type*}

/-- Two keys never share an address. -/
def Injective (addr : κ → Option α) : Prop :=
  ∀ ⦃k k' a⦄, addr k = some a → addr k' = some a → k = k'

/-- `addr'` translates at least what `addr` does, in the same way. -/
def Extends (addr addr' : κ → Option α) : Prop := ∀ ⦃k a⦄, addr k = some a → addr' k = some a

/-- The memory `mem`, read through `addr`, holds every value that `spec` knows. -/
def Represents (addr : κ → Option α) (mem : α → β) (spec : κ → Option β) : Prop :=
  ∀ ⦃k v⦄, spec k = some v → ∃ a, addr k = some a ∧ mem a = v

namespace Represents

variable {addr addr' : κ → Option α} {mem mem' : α → β} {spec spec' : κ → Option β}

theorem extend (H : Represents addr mem spec) (hle : Extends addr addr') :
    Represents addr' mem spec := by
  intro k v hk
  obtain ⟨a, ha, hv⟩ := H hk
  exact ⟨a, hle ha, hv⟩

/-- A store through the keys in `W`: the specification changes at these keys only, the memory at
their addresses only. -/
theorem store (H : Represents addr mem spec) (hinj : Injective addr) (W : κ → Prop)
    (hin : ∀ ⦃k v⦄, W k → spec' k = some v → ∃ a, addr k = some a ∧ mem' a = v)
    (hspec : ∀ ⦃k⦄, ¬W k → spec' k = spec k)
    (hmem : ∀ ⦃a⦄, mem' a ≠ mem a → ∃ k, W k ∧ addr k = some a) :
    Represents addr mem' spec' := by
  intro k v hk
  by_cases hw : W k
  · exact hin hw hk
  · rw [hspec hw] at hk
    obtain ⟨a, ha, hv⟩ := H hk
    refine ⟨a, ha, ?_⟩
    by_contra hne
    obtain ⟨k', hw', ha'⟩ := hmem (a := a) (by rw [hv]; exact hne)
    exact hw (hinj ha ha' ▸ hw')

end Represents
end

end AddressMap
