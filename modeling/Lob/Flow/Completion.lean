import Lob.Flow.Runs

/-!
# Steps that return

A run can be carried out to its end exactly when none of its steps tries to
cancel from a short list of orders that are all gone, and none finds a cap that
has wrapped to zero.
-/

namespace Lob.OrderFlowSimulator

/-- The step returns: its attempts to cancel do not run out of ids, and it does not go round for
ever. -/
def Returns (s : OrderFlowSimulator) (d : Draws) : Prop := ¬ s.Exhausts d ∧ ¬ s.Circles d

variable {b : OrderBook} {s s' : OrderFlowSimulator} {d : Draws}

/-- From a sound state, the actions can be taken iff each step among them returns. -/
theorem Sound.carriesOut_iff {acts : List Action} (h : s.Sound b) (hacts : Spares b acts) :
    (∃ s', Runs s acts s') ↔ EveryStep Returns s acts := by
  induction acts generalizing s with
  | nil => exact iff_of_true ⟨s, .nil s⟩ trivial
  | cons a acts ih =>
    have hrest : Spares b acts := fun op hop => hacts op (List.mem_cons_of_mem _ hop)
    cases a with
    | step d =>
      constructor
      · rintro ⟨s', hrun⟩
        cases hrun with
        | step hstep hrun =>
          refine ⟨(completes_iff h.wf).mp ⟨_, _, hstep⟩, fun ok s₂ hc => ?_⟩
          obtain ⟨_, rfl⟩ := Prod.mk.inj (Except.ok.inj (hstep.unique hc))
          exact (ih (h.completes hstep) hrest).mp ⟨s', hrun⟩
      · rintro ⟨hreturns, hall⟩
        obtain ⟨ok, s₁, hc⟩ := (completes_iff h.wf).mpr hreturns
        obtain ⟨s', hrun⟩ := (ih (h.completes hc) hrest).mpr (hall ok s₁ hc)
        exact ⟨s', .step hc hrun⟩
    | outside op =>
      have hs := h.outside (hacts op List.mem_cons_self)
      constructor
      · rintro ⟨s', hrun⟩
        cases hrun with
        | outside hrun => exact (ih hs hrest).mp ⟨s', hrun⟩
      · intro hall
        obtain ⟨s', hrun⟩ := (ih hs hrest).mpr hall
        exact ⟨s', .outside hrun⟩

/-- On every book, for every configuration, a run of steps and calls of others can be carried out
to its end iff each of its steps returns. -/
theorem runs_iff (hw : b.WellFormed) (cfg : SimConfig) {acts : List Action}
    (hacts : Spares b acts) :
    (∃ s, Runs (new cfg b) acts s) ↔ EveryStep Returns (new cfg b) acts :=
  (sound_new cfg hw).carriesOut_iff hacts

def cancelDrawn : Draws := { kind := .cancel, buy := true, mag := 1, size := 0, pick := fun _ => 0 }

/-- A draw to cancel then evaluates a remainder by zero. -/
theorem filledBehind_exhausts :
    Runs (new {} (OrderBook.new 4)) [.step bidDrawn, .step saleDrawn] filledBehind ∧
      Fuel.Ends (fun n => filledBehind.step n cancelDrawn) (.error .modByZero) := by
  have hgone : ∀ id ∈ filledBehind.live, filledBehind.Stale id := by decide +kernel
  have hex : filledBehind.Exhausts cancelDrawn :=
    ⟨⟨by decide +kernel, Or.inl rfl⟩, by decide +kernel, hgone⟩
  exact ⟨runs_filledBehind, hex.ends⟩

/-- The cap of this depth wraps to zero, and the first limit order is never added. -/
example : (new { targetDepthPerSide := 9223372036854775776 } (OrderBook.new 4)).Circles bidDrawn :=
  ⟨rfl, by decide, by decide⟩

theorem runs_iff_filled :
    (∃ s, Runs (new {} (OrderBook.new 4)) [.step bidDrawn, .outside (.market .sell 1)] s) ↔
      EveryStep Returns (new {} (OrderBook.new 4)) [.step bidDrawn, .outside (.market .sell 1)] :=
  runs_iff (OrderBook.wellFormed_new 4 .pool) {} fun op hop id hid => by
    simp only [List.mem_cons, List.not_mem_nil, or_false, reduceCtorEq, false_or] at hop
    obtain rfl := Action.outside.inj hop
    contradiction

end Lob.OrderFlowSimulator
