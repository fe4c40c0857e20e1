import Lob.Core.Loop

/-!
# Enough fuel

A computation that gives up when its fuel runs out ends with a result when every
large enough amount of fuel yields that result. What is built from computations
that end, by sequencing, by a fold or by a bounded loop, ends as well.
-/

namespace Fuel

variable {α β σ : Type*} {f : Nat → Option α} {a : α} {b : β}

/-- With enough fuel the computation returns `a`. -/
def Ends (f : Nat → Option α) (a : α) : Prop := ∃ n, ∀ m, n ≤ m → f m = some a

theorem Ends.unique {a' : α} (h : Ends f a) (h' : Ends f a') : a = a' := by
  obtain ⟨n, hn⟩ := h
  obtain ⟨k, hk⟩ := h'
  exact Option.some.inj ((hn (max n k) (Nat.le_max_left n k)).symm.trans
    (hk (max n k) (Nat.le_max_right n k)))

/-- What gives up on every amount of fuel returns nothing. -/
theorem not_ends (h : ∀ n, f n = none) : ¬ Ends f a := by
  rintro ⟨n, hn⟩
  have hsome := hn n (Nat.le_refl n)
  rw [h n] at hsome
  contradiction

theorem ends_some (a : α) : Ends (fun _ => some a) a := ⟨0, fun _ _ => rfl⟩

/-- One more unit of fuel may be spent on the way. -/
theorem Ends.of_succ (h : Ends (fun n => f (n + 1)) a) : Ends f a := by
  obtain ⟨n, hn⟩ := h
  refine ⟨n + 1, fun m hm => ?_⟩
  cases m with
  | zero => omega
  | succ m => exact hn m (Nat.le_of_succ_le_succ hm)

/-- Only large amounts of fuel matter. -/
theorem Ends.congr {g : Nat → Option α} (h : Ends g a) {n : Nat} (heq : ∀ m, n ≤ m → f m = g m) :
    Ends f a := by
  obtain ⟨k, hk⟩ := h
  refine ⟨max n k, fun m hm => ?_⟩
  rw [heq m (Nat.le_trans (Nat.le_max_left n k) hm)]
  exact hk m (Nat.le_trans (Nat.le_max_right n k) hm)

theorem Ends.map (h : Ends f a) (g : α → β) : Ends (fun n => (f n).map g) (g a) := by
  obtain ⟨n, hn⟩ := h
  refine ⟨n, fun m hm => ?_⟩
  simp only [hn m hm, Option.map_some]

/-- Both parts get the whole fuel. -/
theorem Ends.bind {g : Nat → α → Option β} (h : Ends f a) (hg : Ends (fun n => g n a) b) :
    Ends (fun n => (f n).bind (g n)) b := by
  obtain ⟨n, hn⟩ := h
  obtain ⟨k, hk⟩ := hg
  refine ⟨max n k, fun m hm => ?_⟩
  simp only [hn m (Nat.le_trans (Nat.le_max_left n k) hm), Option.bind_some]
  exact hk m (Nat.le_trans (Nat.le_max_right n k) hm)

/-- A fold ends when each of its steps does, from any state that the steps before it lead to. -/
theorem Ends.foldlM {I : σ → Prop} {g : Nat → σ → α → Option σ} {step : σ → α → σ}
    (hends : ∀ s x, I s → Ends (fun n => g n s x) (step s x))
    (hkeeps : ∀ s x, I s → I (step s x)) (q : List α) {s : σ} (hs : I s) :
    Ends (fun n => q.foldlM (g n) s) (q.foldl step s) := by
  induction q generalizing s with
  | nil => exact ends_some s
  | cons x q ih =>
    simp only [List.foldlM_cons, List.foldl_cons]
    exact (hends s x hs).bind (ih (hkeeps s x hs))

/-- A loop that is over after some number of iterations ends. -/
theorem ends_run {active : σ → Bool} {step : σ → σ} {k : Nat} {w : σ}
    (hk : active (Loop.run active step k w) = false) :
    Ends (fun n => if active (Loop.run active step n w) then none
      else some (Loop.run active step n w)) (Loop.run active step k w) := by
  refine ⟨k, fun m hm => ?_⟩
  have hm : Loop.run active step m w = Loop.run active step k w := by
    rw [← Nat.add_sub_of_le hm, ← Loop.run_run]
    exact Loop.run_of_idle hk _
  simp [hm, hk]

end Fuel
