import Mathlib.Tactic.TypeStar

/-!
# Bounded loops

A loop that runs while a condition holds, for a bounded number of iterations.
Once the condition fails, a larger bound changes nothing, so a loop that ends
has one result.
-/

namespace Loop

variable {σ : Type*} {active : σ → Bool} {step step' : σ → σ} {I : σ → Prop} {w : σ} {m n : Nat}

/-- Iterate `step` while `active` holds, `n` times at most. -/
def run (active : σ → Bool) (step : σ → σ) : Nat → σ → σ
  | 0, w => w
  | n + 1, w => if active w then run active step n (step w) else w

theorem run_zero (w : σ) : run active step 0 w = w := rfl

theorem run_succ (n : Nat) (w : σ) :
    run active step (n + 1) w = if active w then run active step n (step w) else w := rfl

theorem run_of_idle (h : active w = false) (n : Nat) : run active step n w = w := by
  cases n with
  | zero => rfl
  | succ n =>
    rw [run_succ, if_neg]
    simp [h]

/-- Running on from where a bound stopped the loop. -/
theorem run_run (m n : Nat) (w : σ) :
    run active step n (run active step m w) = run active step (m + n) w := by
  induction m generalizing w with
  | zero => rw [run_zero, Nat.zero_add]
  | succ m ih =>
    rw [run_succ, Nat.succ_add, run_succ]
    split
    · exact ih _
    · next h => exact run_of_idle (by simpa using h) n

/-- What the iterations keep holds at the end. -/
theorem run_invariant (hstep : ∀ w, I w → active w = true → I (step w)) (h : I w) (n : Nat) :
    I (run active step n w) := by
  induction n generalizing w with
  | zero => exact h
  | succ n ih =>
    rw [run_succ]
    split
    · next ha => exact ih (hstep w h ha)
    · exact h

/-- A loop has one result, whatever bound it ends within. -/
theorem run_unique (hm : active (run active step m w) = false)
    (hn : active (run active step n w) = false) :
    run active step m w = run active step n w := by
  have hm' : run active step n (run active step m w) = run active step m w := run_of_idle hm n
  have hn' : run active step m (run active step n w) = run active step n w := run_of_idle hn m
  rw [run_run] at hm' hn'
  rw [← hm', ← hn', Nat.add_comm]

/-- Two bodies that agree wherever the loop gets make the same loop. -/
theorem run_congr (heq : ∀ w, I w → active w = true → step' w = step w)
    (hstep : ∀ w, I w → active w = true → I (step w)) (h : I w) (n : Nat) :
    run active step' n w = run active step n w := by
  induction n generalizing w with
  | zero => rfl
  | succ n ih =>
    rw [run_succ, run_succ]
    split
    · next ha => rw [heq w h ha, ih (hstep w h ha)]
    · rfl

/-- A map of the states that the condition and the body do not notice. -/
theorem run_map {f : σ → σ} (hactive : ∀ w, active (f w) = active w)
    (hstep : ∀ w, step (f w) = f (step w)) (n : Nat) (w : σ) :
    run active step n (f w) = f (run active step n w) := by
  induction n generalizing w with
  | zero => rfl
  | succ n ih =>
    rw [run_succ, run_succ, hactive]
    split
    · rw [hstep, ih]
    · rfl

/-- Two loops whose bodies keep a relation under which both run on. -/
theorem run_related {τ : Type*} {active' : τ → Bool} {stepR : τ → τ} {R : σ → τ → Prop}
    (hactive : ∀ w v, R w v → active w = active' v)
    (hstep : ∀ w v, R w v → active w = true → R (step w) (stepR v)) {v : τ} (h : R w v) (n : Nat) :
    R (run active step n w) (run active' stepR n v) := by
  induction n generalizing w v with
  | zero => exact h
  | succ n ih =>
    rw [run_succ, run_succ, ← hactive w v h]
    split
    · next ha => exact ih (hstep w v h ha)
    · exact h

/-- Their results are related once both have ended, whatever the bounds. -/
theorem run_related_of_done {τ : Type*} {active' : τ → Bool} {stepR : τ → τ} {R : σ → τ → Prop}
    (hactive : ∀ w v, R w v → active w = active' v)
    (hstep : ∀ w v, R w v → active w = true → R (step w) (stepR v)) {v : τ} (h : R w v)
    (hm : active (run active step m w) = false) (hn : active' (run active' stepR n v) = false) :
    R (run active step m w) (run active' stepR n v) := by
  have hrun := run_related hactive hstep h (m + n)
  rw [← run_run m n w, run_of_idle hm, Nat.add_comm, ← run_run n m v, run_of_idle hn] at hrun
  exact hrun

/-- A loop ends within a number that every iteration lowers. -/
theorem run_done (μ : σ → Nat)
    (hstep : ∀ w, I w → active w = true → I (step w) ∧ μ (step w) < μ w) (h : I w)
    (hn : μ w ≤ n) : active (run active step n w) = false := by
  induction n generalizing w with
  | zero =>
    cases ha : active w with
    | false => exact ha
    | true =>
      have hlt := (hstep w h ha).2
      omega
  | succ n ih =>
    rw [run_succ]
    split
    · next ha =>
      obtain ⟨hI, hlt⟩ := hstep w h ha
      exact ih hI (by omega)
    · next ha => simpa using ha

end Loop
