import Mathlib.Data.Set.Basic
import Mathlib.Logic.Relation

/-!
# Re-entrant trigger queues

Armed entries wait for a price that meets them. A pass queues everything that is
pending at one price and takes the queued entries in turn: an entry the price does
not meet becomes pending again, one it meets fires, one that is no longer armed is
missed. A firing may begin another pass before the present one has ended, so the
queues of several passes stand in one list of tasks, the innermost first.
-/

namespace Trigger

/-- An entry in the queue of a pass. -/
structure Task (α P : Type*) where
  slot : α
  last : P
  pass : Nat

/-- The queues, with what has been fired, traded and missed so far. -/
@[ext]
structure State (α P : Type*) where
  armed : Set α
  pending : List α
  tasks : List (Task α P)
  fired : List (Task α P)
  traded : List P
  missed : List α

variable {α P : Type*}

/-- Begin pass `n` at price `p`. -/
def State.begin (s : State α P) (p : P) (n : Nat) : State α P :=
  { s with
    pending := []
    tasks := (s.pending.map fun a => ⟨a, p, n⟩) ++ s.tasks
    traded := s.traded ++ [p] }

/-- Take the entry `t` off the queue and fire it. -/
def State.fire (s : State α P) (t : Task α P) (K : List (Task α P)) : State α P :=
  { s with
    tasks := K
    armed := s.armed \ {t.slot}
    fired := s.fired ++ [t] }

variable (meets : P → α → Prop) (guard : State α P → Task α P → P → Prop)

/-- A queued entry that its pass is going to fire. -/
def State.Due (s : State α P) (t : Task α P) : Prop := t.slot ∈ s.armed ∧ meets t.last t.slot

/-- One entry is taken from the queue. If it fires, it may begin a pass under the guard. -/
inductive Step : State α P → State α P → Prop
  | miss (s : State α P) (t : Task α P) (K : List (Task α P)) (keep : Bool) : s.tasks = t :: K →
      t.slot ∉ s.armed → Step s { s with
        tasks := K
        pending := if keep then s.pending ++ [t.slot] else s.pending
        missed := s.missed ++ [t.slot] }
  | keep (s : State α P) (t : Task α P) (K : List (Task α P)) : s.tasks = t :: K →
      t.slot ∈ s.armed → ¬ meets t.last t.slot → Step s { s with
        tasks := K
        pending := s.pending ++ [t.slot] }
  | fire (s : State α P) (t : Task α P) (K : List (Task α P)) : s.tasks = t :: K →
      s.Due meets t → Step s (s.fire t K)
  | trade (s : State α P) (t : Task α P) (K : List (Task α P)) (p : P) (n : Nat) :
      s.tasks = t :: K → s.Due meets t → guard s t p → (∀ u ∈ s.tasks ++ s.fired, u.pass < n) →
      Step s ((s.fire t K).begin p n)

/-- Several steps. -/
abbrev Steps : State α P → State α P → Prop := Relation.ReflTransGen (Step meets guard)

variable {meets guard} {s s' : State α P} {t : Task α P} {K : List (Task α P)} {p : P} {n : Nat}

/-- What every step keeps, every run keeps. -/
theorem Steps.invariant {I : State α P → Prop} (h : Steps meets guard s s') (hs : I s)
    (hstep : ∀ s s', I s → Step meets guard s s' → I s') : I s' := by
  induction h with
  | refl => exact hs
  | tail _ hc ih => exact hstep _ _ ih hc

section Held

/-- Every armed entry stands in some queue. -/
def State.Held (s : State α P) : Prop :=
  ∀ a ∈ s.armed, a ∈ s.pending ∨ ∃ t ∈ s.tasks, t.slot = a

/-- An entry that fires needs no place. -/
theorem State.Held.fire (hs : s.Held) (ht : s.tasks = t :: K) : (s.fire t K).Held := by
  intro a ha
  rcases hs a ha.1 with hp | ⟨u, hu, rfl⟩
  · exact Or.inl hp
  · rw [ht, List.mem_cons] at hu
    rcases hu with rfl | hu
    · exact absurd rfl ha.2
    · exact Or.inr ⟨u, hu, rfl⟩

/-- A pass queues what was pending. -/
theorem State.Held.begin (hs : s.Held) (p : P) (n : Nat) : (s.begin p n).Held := by
  intro a ha
  rcases hs a ha with hp | ⟨u, hu, rfl⟩
  · exact Or.inr ⟨⟨a, p, n⟩, List.mem_append_left _ (List.mem_map_of_mem hp), rfl⟩
  · exact Or.inr ⟨u, List.mem_append_right _ hu, rfl⟩

/-- Every step keeps the armed entries in a queue. -/
theorem Step.held (h : Step meets guard s s') (hs : s.Held) : s'.Held := by
  cases h with
  | miss t K keep ht harmed =>
    intro a ha
    rcases hs a ha with hp | ⟨u, hu, rfl⟩
    · exact Or.inl (by cases keep <;> simp [hp])
    · rw [ht, List.mem_cons] at hu
      rcases hu with rfl | hu
      · exact absurd ha harmed
      · exact Or.inr ⟨u, hu, rfl⟩
  | keep t K ht harmed hmeets =>
    intro a ha
    rcases hs a ha with hp | ⟨u, hu, rfl⟩
    · exact Or.inl (List.mem_append_left _ hp)
    · rw [ht, List.mem_cons] at hu
      rcases hu with rfl | hu
      · exact Or.inl (by simp)
      · exact Or.inr ⟨u, hu, rfl⟩
  | fire t K ht hdue => exact hs.fire ht
  | trade t K p n ht hdue hguard hn => exact (hs.fire ht).begin p n

end Held

section Repeated

variable [DecidableEq α]

/-- How often an entry is queued. -/
def State.copies (s : State α P) (a : α) : Nat :=
  s.pending.count a + (s.tasks.map Task.slot).count a

/-- An entry is armed and queued twice, or its second copy was missed or is still queued. -/
def State.Repeats (s : State α P) (a : α) : Prop :=
  a ∈ s.armed ∧ 2 ≤ s.copies a ∨ a ∉ s.armed ∧ (a ∈ s.missed ∨ 1 ≤ s.copies a)

/-- An entry that has fired is not armed, so it does not fire again. -/
theorem State.Repeats.fire {a : α} (hs : s.Repeats a) (ht : s.tasks = t :: K)
    (hdue : s.Due meets t) : (s.fire t K).Repeats a := by
  have hcopies : s.copies a = (s.fire t K).copies a + if t.slot == a then 1 else 0 := by
    simp only [State.copies, State.fire, ht, List.map_cons, List.count_cons]
    omega
  by_cases hta : t.slot = a
  · rw [if_pos (by simp [hta])] at hcopies
    subst hta
    rcases hs with ⟨_, hc⟩ | ⟨ha, _⟩
    · exact Or.inr ⟨fun ha => ha.2 rfl, Or.inr (by omega)⟩
    · exact absurd hdue.1 ha
  · rw [if_neg (by simpa using hta), Nat.add_zero] at hcopies
    rw [State.Repeats, ← hcopies]
    refine hs.imp (fun hc => ⟨⟨hc.1, fun he => hta he.symm⟩, hc.2⟩) fun hc => ⟨?_, hc.2⟩
    exact fun ha => hc.1 ha.1

/-- A pass queues as many copies as were pending. -/
theorem State.Repeats.begin {a : α} (hs : s.Repeats a) (p : P) (n : Nat) :
    (s.begin p n).Repeats a := by
  have hcopies : s.copies a = (s.begin p n).copies a := by
    have hmap : (s.pending.map fun a => (⟨a, p, n⟩ : Task α P)).map Task.slot = s.pending := by
      simp [Function.comp_def]
    rw [State.copies, State.copies, State.begin, List.map_append, List.count_append, hmap,
      List.count_nil, Nat.zero_add]
  rw [State.Repeats, ← hcopies]
  exact hs

/-- A copy of an entry is only lost by firing it or by missing it. -/
theorem Step.repeats {a : α} (h : Step meets guard s s') (hs : s.Repeats a) : s'.Repeats a := by
  cases h with
  | miss t K keep ht harmed =>
    by_cases hta : t.slot = a
    · subst hta
      exact Or.inr ⟨harmed, Or.inl (by simp)⟩
    · have hcopies : s.copies a ≤ State.copies { s with
          tasks := K
          pending := if keep then s.pending ++ [t.slot] else s.pending
          missed := s.missed ++ [t.slot] } a := by
        rw [State.copies, State.copies, ht, List.map_cons, List.count_cons_of_ne hta]
        cases keep <;> simp [List.count_append]
      rcases hs with ⟨ha, hc⟩ | ⟨ha, hc⟩
      · exact Or.inl ⟨ha, Nat.le_trans hc hcopies⟩
      · exact Or.inr ⟨ha, hc.imp (List.mem_append_left _) fun hc => Nat.le_trans hc hcopies⟩
  | keep t K ht harmed hmeets =>
    have hcopies : s.copies a = State.copies { s with
        tasks := K
        pending := s.pending ++ [t.slot] } a := by
      simp only [State.copies, ht, List.map_cons, List.count_append, List.count_cons,
        List.count_nil]
      omega
    rw [State.Repeats, ← hcopies]
    exact hs
  | fire t K ht hdue => exact hs.fire ht hdue
  | trade t K p n ht hdue hguard hn => exact (hs.fire ht hdue).begin p n

/-- An entry that was queued twice ends as pending twice, as missed, or as pending but not
armed. -/
theorem Steps.repeats {a : α} (h : Steps meets guard s s') (hs : s.Repeats a)
    (htasks : s'.tasks = []) :
    2 ≤ s'.pending.count a ∨ a ∈ s'.missed ∨ a ∉ s'.armed ∧ a ∈ s'.pending := by
  have hr : s'.Repeats a := Steps.invariant (I := fun s => s.Repeats a) h hs fun _ _ hs hc =>
    hc.repeats hs
  have hcopies : s'.copies a = s'.pending.count a := by simp [State.copies, htasks]
  rw [State.Repeats, hcopies] at hr
  rcases hr with ⟨_, hc⟩ | ⟨ha, hm | hc⟩
  · exact Or.inl hc
  · exact Or.inr (Or.inl hm)
  · exact Or.inr (Or.inr ⟨ha, List.count_pos_iff.mp hc⟩)

end Repeated

end Trigger
