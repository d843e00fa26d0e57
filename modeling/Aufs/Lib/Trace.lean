import Mathlib.Data.List.Basic

/-! Runs of a labelled transition relation. A step takes an input, gives an output and moves to a
next state; a `Trace` records the inputs and outputs of a finite run in order. -/

section
variable {σ ι ο : Type*}

/-- `Trace step s₀ h s`: from `s₀` the run with history `h` ends in `s`. -/
inductive Trace (step : σ → ι → ο → σ → Prop) (s₀ : σ) : List (ι × ο) → σ → Prop
  | nil : Trace step s₀ [] s₀
  | snoc {h s i o s'} : Trace step s₀ h s → step s i o s' → Trace step s₀ (h ++ [(i, o)]) s'

namespace Trace

variable {step : σ → ι → ο → σ → Prop} {s₀ s s' : σ} {h h' : List (ι × ο)}

/-- The invariant rule: what holds at the start and survives a step holds at every state
reached. -/
theorem invariant {Inv : σ → Prop} (init : Inv s₀)
    (pres : ∀ {s i o s'}, Inv s → step s i o s' → Inv s') (t : Trace step s₀ h s) : Inv s := by
  induction t with
  | nil => exact init
  | snoc _ hstep ih => exact pres ih hstep

/-- The invariant rule for a relation between the history and the state, under an invariant
already known. -/
theorem simulation {Inv : σ → Prop} {R : List (ι × ο) → σ → Prop}
    (inv : ∀ {h s}, Trace step s₀ h s → Inv s) (init : R [] s₀)
    (pres : ∀ {h s i o s'}, Inv s → R h s → step s i o s' → R (h ++ [(i, o)]) s')
    (t : Trace step s₀ h s) : R h s := by
  induction t with
  | nil => exact init
  | snoc t hstep ih => exact pres (inv t) ih hstep

theorem append (t : Trace step s₀ h s) (t' : Trace step s h' s') :
    Trace step s₀ (h ++ h') s' := by
  induction t' with
  | nil => simpa using t
  | snoc _ hstep ih =>
    rw [← List.append_assoc]
    exact ih.snoc hstep

theorem single {i : ι} {o : ο} (hstep : step s i o s') : Trace step s [(i, o)] s' :=
  Trace.nil.snoc hstep

/-- A weaker relation has the same runs. -/
theorem mono {step' : σ → ι → ο → σ → Prop} (hle : ∀ {s i o s'}, step s i o s' → step' s i o s')
    (t : Trace step s₀ h s) : Trace step' s₀ h s := by
  induction t with
  | nil => exact .nil
  | snoc _ hstep ih => exact ih.snoc (hle hstep)

/-- A run seen through `f`, where every step is one of another relation. -/
theorem map {τ : Type*} {step' : τ → ι → ο → τ → Prop} (f : σ → τ)
    (h : ∀ {s i o s'}, step s i o s' → step' (f s) i o (f s')) (t : Trace step s₀ hist s) :
    Trace step' (f s₀) hist (f s) := by
  induction t with
  | nil => exact .nil
  | snoc _ hstep ih => exact ih.snoc (h hstep)

end Trace
end
