import Mathlib.Data.UInt
import Lob.Core.Run

/-!
# Amortised counting

A run is charged for some of its steps and credited for others. When a
potential of the states covers the difference of every single step, the
charges of a whole run stay within its credits and the potential it began with.
-/

namespace Run

variable {σ α : Type*}

/-- The sum of a quantity over the steps of a run. -/
def total (count : σ → α → Nat) (step : σ → α → σ) : σ → List α → Nat
  | _, [] => 0
  | s, a :: as => count s a + total count step (step s a) as

variable {step : σ → α → σ} {charge credit : σ → α → Nat} {s : σ} {I : σ → Prop}

/-- Totals add up. -/
theorem total_add (f g : σ → α → Nat) (s : σ) (as : List α) :
    total (fun s a => f s a + g s a) step s as = total f step s as + total g step s as := by
  induction as generalizing s with
  | nil => rfl
  | cons a as ih =>
    simp only [total, ih]
    omega

theorem total_mul (c : Nat) (f : σ → α → Nat) (s : σ) (as : List α) :
    total (fun s a => c * f s a) step s as = c * total f step s as := by
  induction as generalizing s with
  | nil => rfl
  | cons a as ih => simp only [total, ih, Nat.mul_add]

/-- The potential method. -/
theorem total_le (potential : σ → Nat)
    (hstep : ∀ s a, I s → charge s a + potential (step s a) ≤ credit s a + potential s)
    (hkeep : ∀ s a, I s → I (step s a)) (h : I s) (as : List α) :
    total charge step s as + potential (as.foldl step s) ≤
      total credit step s as + potential s := by
  induction as generalizing s with
  | nil => exact Nat.le_refl _
  | cons a as ih =>
    have hfirst := hstep s a h
    have hrest := ih (hkeep s a h)
    simp only [total, List.foldl_cons]
    omega

end Run
