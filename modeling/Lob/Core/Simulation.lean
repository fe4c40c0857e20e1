import Lob.Core.Run

/-!
# Simulations

Two machines take the same actions. A relation between their states that every
guarded action keeps, with equal outputs, holds after every allowed run, and
then the two runs show the same.
-/

namespace Run

variable {σ τ α β : Type*}

/-- What the actions show, one after the other. -/
def outputs (out : σ → α → β) (step : σ → α → σ) : σ → List α → List β
  | _, [] => []
  | s, a :: as => out s a :: outputs out step (step s a) as

/-- The related state of the second machine follows every action the first one is allowed. -/
structure Simulates (R : σ → τ → Prop) (guard : σ → α → Prop) (step : σ → α → σ)
    (out : σ → α → β) (step' : τ → α → τ) (out' : τ → α → β) : Prop where
  step : ∀ s t a, R s t → guard s a → R (step s a) (step' t a)
  out : ∀ s t a, R s t → guard s a → out s a = out' t a

variable {R : σ → τ → Prop} {guard : σ → α → Prop} {step : σ → α → σ} {out : σ → α → β}
  {step' : τ → α → τ} {out' : τ → α → β} {s : σ} {t : τ} {as : List α}

/-- The runs of an allowed list of actions end in related states. -/
theorem Simulates.foldl (h : Simulates R guard step out step' out') (hst : R s t)
    (has : Allowed step guard s as) : R (as.foldl step s) (as.foldl step' t) := by
  induction as generalizing s t with
  | nil => exact hst
  | cons a as ih => exact ih (h.step s t a hst has.1) has.2

/-- The runs of an allowed list of actions show the same. -/
theorem Simulates.outputs (h : Simulates R guard step out step' out') (hst : R s t)
    (has : Allowed step guard s as) : outputs out step s as = outputs out' step' t as := by
  induction as generalizing s t with
  | nil => rfl
  | cons a as ih =>
    simp only [Run.outputs]
    rw [h.out s t a hst has.1, ih (h.step s t a hst has.1) has.2]

end Run
