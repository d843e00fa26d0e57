import Mathlib.Logic.Function.Basic

/-! Tables as functions into `Option`, changed at one key. -/

namespace PartialMap

section
variable {κ α β : Type*} [DecidableEq κ] {f : κ → Option α} {a k : κ}

/-- An entry of a changed table is the new one or an old one. -/
theorem update_eq_some {x : Option α} {y : α} (h : Function.update f a x k = some y) :
    (k = a ∧ x = some y) ∨ k ≠ a ∧ f k = some y := by
  by_cases hk : k = a
  · subst hk
    rw [Function.update_self] at h
    exact .inl ⟨rfl, h⟩
  · rw [Function.update_of_ne hk] at h
    exact .inr ⟨hk, h⟩

theorem isSome_update (a : κ) (x : α) (h : (f k).isSome) :
    (Function.update f a (some x) k).isSome := by
  by_cases hk : k = a
  · rw [hk, Function.update_self]
    rfl
  · rwa [Function.update_of_ne hk]

/-- Two tables stay related entry by entry. -/
theorem rel_update {r : κ → α → β → Prop} {g : κ → Option β} {x : α} {y : β}
    (h : ∀ k, Option.Rel (r k) (f k) (g k)) (ha : r a x y) (k : κ) :
    Option.Rel (r k) (Function.update f a (some x) k) (Function.update g a (some y) k) := by
  by_cases hk : k = a
  · subst hk
    rw [Function.update_self, Function.update_self]
    exact .some ha
  · rw [Function.update_of_ne hk, Function.update_of_ne hk]
    exact h k

end

end PartialMap
