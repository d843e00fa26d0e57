import Mathlib.Data.List.Basic

/-! A store behind a write-back cache. The store may be behind its view, the contents with every
change applied, only at addresses whose key is cached; writing a cached key back and changing the
view at a cached key keep that. -/

section
variable {α β κ : Type*} {key : α → κ} {store store' view view' : α → β} {k : κ}
  {keys keys' : List κ}

/-- Outside the addresses of `keys` the store is what its view says. -/
def StaleOnly (key : α → κ) (store view : α → β) (keys : List κ) : Prop :=
  ∀ a, key a ∉ keys → store a = view a

namespace StaleOnly

theorem refl : StaleOnly key store store keys := fun _ _ => rfl

theorem mono (h : StaleOnly key store view keys) (hsub : keys ⊆ keys') :
    StaleOnly key store view keys' := fun a ha => h a fun hmem => ha (hsub hmem)

/-- A change of the view at a cached key. -/
theorem modify (h : StaleOnly key store view keys) (hk : k ∈ keys)
    (hview : ∀ a, key a ≠ k → view' a = view a) : StaleOnly key store view' keys := by
  intro a ha
  rw [hview a fun heq => ha (heq ▸ hk)]
  exact h a ha

/-- A key that is written back need not be cached any longer. -/
theorem writeBack (h : StaleOnly key store view (k :: keys))
    (hwrite : ∀ a, key a = k → store' a = view a) (hkeep : ∀ a, key a ≠ k → store' a = store a) :
    StaleOnly key store' view keys := by
  intro a ha
  by_cases heq : key a = k
  · exact hwrite a heq
  · rw [hkeep a heq]
    refine h a fun hmem => ?_
    rcases List.mem_cons.mp hmem with hk | hmem
    · exact heq hk
    · exact ha hmem

/-- With nothing cached the store is its view. -/
theorem eq_view (h : StaleOnly key store view []) : store = view :=
  funext fun a => h a List.not_mem_nil

end StaleOnly
end
