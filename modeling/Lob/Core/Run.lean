import Mathlib.Logic.Relation

/-!
# Runs

A machine takes one action after another, each under a guard on the state it
is taken in. What holds at the start and survives every guarded action holds
in every state of a run.
-/

namespace Run

variable {σ α : Type*}

/-- The states that guarded actions lead to from `s₀`. -/
inductive Reach (step : σ → α → σ) (guard : σ → α → Prop) (s₀ : σ) : σ → Prop
  | init : Reach step guard s₀ s₀
  | next (s : σ) (a : α) : Reach step guard s₀ s → guard s a → Reach step guard s₀ (step s a)

variable {step : σ → α → σ} {guard guard' : σ → α → Prop} {s₀ s : σ} {I J : σ → Prop}

/-- An invariant of the guarded actions holds in every reached state. -/
theorem Reach.invariant (h : Reach step guard s₀ s) (hinit : I s₀)
    (hstep : ∀ s a, I s → guard s a → I (step s a)) : I s := by
  induction h with
  | init => exact hinit
  | next s a _ hg ih => exact hstep s a ih hg

/-- An invariant that needs another one to be preserved. -/
theorem Reach.invariant_of (h : Reach step guard s₀ s) (hJ : ∀ s, Reach step guard s₀ s → J s)
    (hinit : I s₀) (hstep : ∀ s a, J s → I s → guard s a → I (step s a)) : I s := by
  induction h with
  | init => exact hinit
  | next s a hs hg ih => exact hstep s a (hJ s hs) ih hg

/-- A weaker guard reaches more. -/
theorem Reach.mono (h : Reach step guard s₀ s) (hg : ∀ s a, guard s a → guard' s a) :
    Reach step guard' s₀ s := by
  induction h with
  | init => exact Reach.init
  | next s a _ hs ih => exact Reach.next s a ih (hg s a hs)

/-- The actions `as` may be taken from `s`, one after the other. -/
def Allowed (step : σ → α → σ) (guard : σ → α → Prop) : σ → List α → Prop
  | _, [] => True
  | s, a :: as => guard s a ∧ Allowed step guard (step s a) as

instance decidableAllowed [∀ s a, Decidable (guard s a)] (s : σ) (as : List α) :
    Decidable (Allowed step guard s as) :=
  match as with
  | [] => isTrue trivial
  | _ :: as => @instDecidableAnd _ _ _ (decidableAllowed _ as)

/-- Two guards that agree where an invariant holds allow the same runs, if the actions they allow
keep the invariant. -/
theorem allowed_congr {as : List α} (hstep : ∀ s a, I s → (guard s a ↔ guard' s a))
    (hkeep : ∀ s a, I s → guard s a → I (step s a)) (h : I s) :
    Allowed step guard s as ↔ Allowed step guard' s as := by
  induction as generalizing s with
  | nil => exact Iff.rfl
  | cons a as ih =>
    constructor
    · intro hs
      exact ⟨(hstep s a h).mp hs.1, (ih (hkeep s a h hs.1)).mp hs.2⟩
    · intro hs
      have ha := (hstep s a h).mpr hs.1
      exact ⟨ha, (ih (hkeep s a h ha)).mpr hs.2⟩

/-- A list of allowed actions leads to a reached state. -/
theorem Reach.foldl {as : List α} (h : Reach step guard s₀ s) (hs : Allowed step guard s as) :
    Reach step guard s₀ (as.foldl step s) := by
  induction as generalizing s with
  | nil => exact h
  | cons a as ih => exact ih (Reach.next s a h hs.1) hs.2

end Run
