import Lob.Flow.Runs

/-!
# What the result of a step reports

`false` should say that the draw was a no-op, a cancel with no order to cancel,
and `true` that one call on the book has done what it should. A full pool and
eight ids that are gone make a step return `false` for other reasons.
-/

namespace Lob.OrderFlowSimulator

variable {b : OrderBook} {s s' : OrderFlowSimulator} {d : Draws} {ok : Bool}

/-- The calls that an event comes to. -/
def IsEventCall : Op → Prop
  | .add .. | .cancel _ | .market .. => True
  | .modify .. | .fill .. | .configure .. => False

/-- What `false` reports. -/
structure NoOp (s : OrderFlowSimulator) (d : Draws) (s' : OrderFlowSimulator) : Prop where
  book : s'.book = s.book
  kind : d.kind = .cancel
  /-- No order of the simulator rests in the book. -/
  gone : ∀ id ∈ s.placed, s.Stale id

/-- What `true` reports. -/
structure AppliesOne (s s' : OrderFlowSimulator) : Prop where
  counted : s'.applied = s.applied + 1
  /-- One of its calls on the book has done what it should, after those that have not. -/
  one : ∃ failed call, s'.calls = s.calls ++ failed ++ [(call, true)] ∧
    (∀ c ∈ failed, c.2 = false) ∧ IsEventCall call ∧ s'.book = s.book.apply call

/-- The step does what its result reports. -/
def Faithful (s : OrderFlowSimulator) (d : Draws) : Bool → OrderFlowSimulator → Prop
  | false, s' => s.NoOp d s'
  | true, s' => s.AppliesOne s'

/-- A limit order finds the pool full, or eight ids that are gone are chosen to cancel, for a
limit order or while an order of the simulator rests in the book. -/
def Misreports (s : OrderFlowSimulator) (d : Draws) : Prop :=
  d.kind = .limit ∧ s.live.length < s.cfg.cap.toNat ∧ s.book.pool.allocate = none ∨
  s.Cancels d ∧ 8 ≤ s.live.length ∧ (∀ id ∈ chosen d 8 0 s.live, s.Stale id) ∧
    (d.kind = .limit ∨ ∃ id ∈ s.placed, ¬ s.Stale id)

/-- The end of a step leaves the book and the calls alone. -/
theorem finish_book (ok : Bool) (s : OrderFlowSimulator) : (finish (ok, s)).2.book = s.book := by
  rcases finish_cases ok s with he | he <;> rw [he]

theorem finish_calls (ok : Bool) (s : OrderFlowSimulator) : (finish (ok, s)).2.calls = s.calls := by
  rcases finish_cases ok s with he | he <;> rw [he]

theorem finish_applied (s : OrderFlowSimulator) :
    (finish (true, s)).2.applied = s.applied + 1 := by
  rcases finish_cases true s with he | he <;> rw [he] <;> rfl

/-- A call that has done what it should, after those that have not. -/
theorem appliesOne_finish (failed : List (Op × Bool)) (call : Op)
    (happlied : s'.applied = s.applied) (hcalls : s'.calls = s.calls ++ failed ++ [(call, true)])
    (hfailed : ∀ c ∈ failed, c.2 = false) (hevent : IsEventCall call)
    (hbook : s'.book = s.book.apply call) : s.AppliesOne (finish (true, s')).2 where
  counted := by rw [finish_applied, happlied]
  one := ⟨failed, call, by rw [finish_calls, hcalls], hfailed, hevent, by rw [finish_book, hbook]⟩

/-- Without ids to cancel, none of the simulator's orders is left. -/
theorem Sound.gone (h : s.Sound b) (hlive : s.live = []) : ∀ id ∈ s.placed, s.Stale id := by
  intro id hid
  by_contra hthere
  have hmem := h.covered id hid hthere
  rw [hlive] at hmem
  contradiction

/-- A market order is sent. -/
theorem faithful_market (hkind : d.kind = .market) :
    s.Faithful d true (finish (true, s.traded d)).2 ∧ ¬ s.Misreports d := by
  have hcalls : (s.traded d).calls =
      s.calls ++ [] ++ [(.market d.side (1 + d.size % 4), true)] := by
    rw [List.append_nil]
    rfl
  refine ⟨appliesOne_finish [] _ rfl hcalls nofun trivial rfl, ?_⟩
  rintro (⟨hlimit, _⟩ | ⟨⟨_, hcancel | ⟨hlimit, _⟩⟩, _⟩)
  · rw [hkind] at hlimit
    contradiction
  · rw [hkind] at hcancel
    contradiction
  · rw [hkind] at hlimit
    contradiction

/-- A limit order is added, or finds the pool full. -/
theorem faithful_add (h : s.Sound b) (hadds : s.Adds d) :
    s.Faithful d (s.addLimit d).1 (finish (s.addLimit d)).2 ↔ ¬ s.Misreports d := by
  obtain ⟨hroom, hkind⟩ := hadds
  have hcancels : ¬ s.Cancels d := by
    rintro ⟨hlive, hcancel | ⟨_, hfull⟩⟩
    · rcases hkind with hlimit | ⟨_, hnil⟩
      · rw [hcancel] at hlimit
        contradiction
      · exact hlive hnil
    · omega
  obtain ⟨hfull, he⟩ | ⟨hfree, _, he⟩ := addLimit_cases h.wf d
  · rw [he]
    rcases hkind with hlimit | ⟨hcancel, hlive⟩
    · refine iff_of_false (fun hnoop => ?_) (not_not_intro (Or.inl ⟨hlimit, hroom, hfull⟩))
      have hk := hnoop.kind
      rw [hlimit] at hk
      contradiction
    · refine iff_of_true ⟨finish_book _ _, hcancel, h.gone hlive⟩ ?_
      rintro (⟨hlimit, _⟩ | ⟨hc, _⟩)
      · rw [hcancel] at hlimit
        contradiction
      · exact hcancels hc
  · rw [he]
    refine iff_of_true (appliesOne_finish [] (s.limitCall d) rfl ?_ nofun trivial rfl) ?_
    · rw [List.append_nil]
    · rintro (⟨_, _, hfull⟩ | ⟨hc, _⟩)
      · exact hfree hfull
      · exact hcancels hc

/-- From a sound state, a step that returns does what it reports unless it is of the kinds that
misreport. -/
theorem Sound.faithful_iff (h : s.Sound b) (hc : s.Completes d ok s') :
    s.Faithful d ok s' ↔ ¬ s.Misreports d := by
  obtain ⟨s₁, hevent, rfl⟩ := hc.event h.wf
  cases hevent with
  | market hkind => exact iff_of_true (faithful_market hkind).1 (faithful_market hkind).2
  | add hadds => exact faithful_add h hadds
  | miss hcancels live hlong hgone hperm =>
    constructor
    · rintro ⟨_, hcancel, hnone⟩ (⟨hlimit, _⟩ | ⟨_, _, _, hlimit | ⟨id, hid, hthere⟩⟩)
      · rw [hcancel] at hlimit
        contradiction
      · rw [hcancel] at hlimit
        contradiction
      · exact hthere (hnone id hid)
    · intro hmis
      have hlimit : d.kind ≠ .limit := fun hlimit =>
        hmis (Or.inr ⟨hcancels, hlong, hgone, Or.inl hlimit⟩)
      refine ⟨finish_book _ _, ?_, fun id hid => ?_⟩
      · rcases hcancels.2 with hcancel | ⟨hl, _⟩
        · exact hcancel
        · exact absurd hl hlimit
      · by_contra hthere
        exact hmis (Or.inr ⟨hcancels, hlong, hgone, Or.inr ⟨id, hid, hthere⟩⟩)
  | cancel hcancels stale id live hid hthere hgone hperm =>
    refine iff_of_true (appliesOne_finish (stale.map fun id => (.cancel id, false)) (.cancel id)
      rfl rfl (fun c hmem => ?_) trivial rfl) ?_
    · obtain ⟨_, _, rfl⟩ := List.mem_map.mp hmem
      rfl
    · rintro (⟨hlimit, hroom, _⟩ | ⟨_, _, hall, _⟩)
      · rcases hcancels.2 with hcancel | ⟨_, hfull⟩
        · rw [hcancel] at hlimit
          contradiction
        · omega
      · exact hthere (hall id hid)

/-- After every run, on every book and for every configuration, a step that returns does what it
reports iff it is not of the kinds that misreport. -/
theorem runs_faithful_iff (hw : b.WellFormed) (cfg : SimConfig) {acts : List Action}
    (hacts : Spares b acts) (h : Runs (new cfg b) acts s) (hc : s.Completes d ok s') :
    s.Faithful d ok s' ↔ ¬ s.Misreports d :=
  (h.sound (sound_new cfg hw) hacts).faithful_iff hc

/-- The second bid finds no room in a pool of one order, and its step returns `false`. -/
theorem secondBid_misreports :
    ∃ s₁ s₂, Runs (new {} (OrderBook.new 1)) [.step bidDrawn] s₁ ∧
      s₁.Completes bidDrawn false s₂ ∧ ¬ s₁.Faithful bidDrawn false s₂ := by
  have hadds : (new {} (OrderBook.new 1)).Adds bidDrawn := ⟨by decide, Or.inl rfl⟩
  have hagain : (finish ((new {} (OrderBook.new 1)).addLimit bidDrawn)).2.Adds bidDrawn :=
    ⟨by decide +kernel, Or.inl rfl⟩
  have hfalse : ((finish ((new {} (OrderBook.new 1)).addLimit bidDrawn)).2.addLimit bidDrawn).1 =
      false := by decide +kernel
  have hstep := hagain.completes
  rw [hfalse] at hstep
  exact ⟨_, _, .step hadds.completes (.nil _), hstep, fun hnoop => absurd hnoop.kind (by decide)⟩

theorem runs_faithful_iff_filled :
    filledBehind.Faithful bidDrawn (filledBehind.addLimit bidDrawn).1
        (finish (filledBehind.addLimit bidDrawn)).2 ↔ ¬ filledBehind.Misreports bidDrawn := by
  have hadds : filledBehind.Adds bidDrawn := ⟨by decide +kernel, Or.inl rfl⟩
  exact runs_faithful_iff (OrderBook.wellFormed_new 4 .pool) {} (fun op hop => by simp at hop)
    runs_filledBehind hadds.completes

end Lob.OrderFlowSimulator
