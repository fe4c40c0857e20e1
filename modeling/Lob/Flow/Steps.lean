import Lob.Engine.Termination
import Lob.Flow.Simulator
import Lob.Resting.Identity

/-!
# What a step does

A step adds an order, sends a market order, tries to cancel, or goes round
between the two functions that delegate to each other. A try to cancel ends at
the first order that is still there, after eight that are gone, or at an empty
list.
-/

namespace Lob.OrderFlowSimulator

open Fuel

/-- The ids that the attempts to cancel choose if each of them fails. -/
def chosen (d : Draws) (left attempt : Nat) (live : List Nat) : List Nat :=
  Bag.drawn (fun a => (d.pick a).toNat) left attempt live

/-- The order of that id is no longer in the book. -/
def Stale (s : OrderFlowSimulator) (id : Nat) : Prop := s.book.findId id = none

instance (s : OrderFlowSimulator) (id : Nat) : Decidable (s.Stale id) :=
  inferInstanceAs (Decidable (_ = none))

/-- The step comes to add a limit order. -/
def Adds (s : OrderFlowSimulator) (d : Draws) : Prop :=
  s.live.length < s.cfg.cap.toNat ∧ (d.kind = .limit ∨ d.kind = .cancel ∧ s.live = [])

/-- The step comes to choose an order to cancel. -/
def Cancels (s : OrderFlowSimulator) (d : Draws) : Prop :=
  s.live ≠ [] ∧ (d.kind = .cancel ∨ d.kind = .limit ∧ s.cfg.cap.toNat ≤ s.live.length)

/-- The step finds nothing to cancel and no room to add. -/
def Circles (s : OrderFlowSimulator) (d : Draws) : Prop :=
  s.live = [] ∧ s.cfg.cap = 0 ∧ d.kind ≠ .market

/-- The limit order that is drawn. -/
def limitCall (s : OrderFlowSimulator) (d : Draws) : Op :=
  .add d.side (if d.buy then s.cfg.mid - d.mag else s.cfg.mid + d.mag) s.cfg.defaultQty

/-- What `do_market` does. -/
def traded (s : OrderFlowSimulator) (d : Draws) : OrderFlowSimulator :=
  { s with
    book := (s.book.marketOrder d.side (1 + d.size % 4)).2
    calls := s.calls ++ [(.market d.side (1 + d.size % 4), true)] }

/-- The step returns `ok`, and leaves the simulator as `s'`. -/
def Completes (s : OrderFlowSimulator) (d : Draws) (ok : Bool) (s' : OrderFlowSimulator) : Prop :=
  Ends (fun n => s.step n d) (.ok (ok, s'))

variable {s s' : OrderFlowSimulator} {d : Draws} {ok : Bool} {id : Nat}

/-- A cancellation succeeds iff the order is there, and changes nothing otherwise. -/
theorem cancelOrder_of_stale (h : s.Stale id) : s.book.cancelOrder id = (false, s.book) := by
  have hf : s.book.findId id = none := h
  simp only [OrderBook.cancelOrder, hf]

/-- A pick that is not stale is cancelled. -/
theorem cancelOrder_of_not_stale (h : ¬ s.Stale id) : (s.book.cancelOrder id).1 = true := by
  obtain ⟨o, hf⟩ := Option.ne_none_iff_exists'.mp h
  simp only [OrderBook.cancelOrder, hf]

/-- Adding the limit order fails iff the pool is full, and changes nothing then. -/
theorem addLimit_cases (hw : s.book.WellFormed) (d : Draws) :
    (s.book.pool.allocate = none ∧
      s.addLimit d = (false, { s with calls := s.calls ++ [(s.limitCall d, false)] })) ∨
    s.book.pool.allocate ≠ none ∧
      (s.book.apply (s.limitCall d)).nextOrderId = s.book.nextOrderId + 1 ∧
      s.addLimit d = (true, { s with
        book := s.book.apply (s.limitCall d)
        live := s.live ++ [s.book.nextOrderId]
        placed := s.placed ++ [s.book.nextOrderId]
        calls := s.calls ++ [(s.limitCall d, true)] }) := by
  unfold addLimit
  obtain ⟨hfull, hadd⟩ | ⟨hfree, hid, hnext, hpos⟩ := OrderBook.addLimitOrder_cases hw d.side
    (if d.buy then s.cfg.mid - d.mag else s.cfg.mid + d.mag) s.cfg.defaultQty
  · refine Or.inl ⟨hfull, ?_⟩
    simp only [hadd, if_true]
    rfl
  · refine Or.inr ⟨hfree, hnext, ?_⟩
    simp only [hid, if_neg hpos]
    rfl

/-- The simulator after an attempt to cancel that has failed. -/
def missed (s : OrderFlowSimulator) (id : Nat) (live : List Nat) : OrderFlowSimulator :=
  { s with live, calls := s.calls ++ [(.cancel id, false)] }

/-- An attempt goes on when the chosen order is gone, and ends otherwise. -/
theorem cancelAttempts_succ (d : Draws) (left attempt : Nat) (s : OrderFlowSimulator)
    (h : s.live.length ≠ 0) : ∃ id live, id ∈ s.live ∧ (id :: live).Perm s.live ∧
      chosen d (left + 1) attempt s.live = id :: chosen d left (attempt + 1) live ∧
      cancelAttempts d (left + 1) attempt s =
        if s.Stale id then cancelAttempts d left (attempt + 1) (s.missed id live)
        else .ok (true, { s with
          live
          book := (s.book.cancelOrder id).2
          calls := s.calls ++ [(.cancel id, true)] }) := by
  have hi : (d.pick attempt).toNat % s.live.length < s.live.length := Nat.mod_lt _ (by omega)
  have hperm := Bag.perm_remove hi
  refine ⟨_, _, hperm.subset List.mem_cons_self, hperm, ?_, ?_⟩
  · rw [chosen, Bag.drawn, if_neg h]
    rfl
  · rw [cancelAttempts, if_neg h]
    dsimp only
    by_cases hstale : s.Stale (s.live.getD ((d.pick attempt).toNat % s.live.length) default)
    · rw [if_pos hstale, cancelOrder_of_stale hstale]
      rfl
    · rw [if_neg hstale, cancelOrder_of_not_stale hstale]
      rfl

/-- How the attempts to cancel end. -/
theorem cancelAttempts_cases (d : Draws) (left attempt : Nat) (s : OrderFlowSimulator) :
    (cancelAttempts d left attempt s = .error .modByZero ∧ s.live.length < left ∧
      ∀ id ∈ s.live, s.Stale id) ∨
    (∃ live, cancelAttempts d left attempt s = .ok (false, { s with
        live
        calls := s.calls ++ (chosen d left attempt s.live).map fun id => (.cancel id, false) }) ∧
      left ≤ s.live.length ∧ (∀ id ∈ chosen d left attempt s.live, s.Stale id) ∧
      (chosen d left attempt s.live ++ live).Perm s.live) ∨
    ∃ stale id live, cancelAttempts d left attempt s = .ok (true, { s with
        live
        book := (s.book.cancelOrder id).2
        calls := s.calls ++ stale.map (fun id => (.cancel id, false)) ++ [(.cancel id, true)] }) ∧
      id ∈ chosen d left attempt s.live ∧ ¬ s.Stale id ∧ (∀ j ∈ stale, s.Stale j) ∧
      (stale ++ id :: live).Perm s.live := by
  induction left generalizing attempt s with
  | zero =>
    refine Or.inr (Or.inl ⟨s.live, ?_, Nat.zero_le _, fun id hid => ?_, List.Perm.refl _⟩)
    · simp [cancelAttempts, chosen, Bag.drawn]
    · simp [chosen, Bag.drawn] at hid
  | succ left ih =>
    by_cases hlen : s.live.length = 0
    · refine Or.inl ⟨?_, by omega, fun id hid => ?_⟩
      · rw [cancelAttempts, if_pos hlen]
      · rw [List.eq_nil_of_length_eq_zero hlen] at hid
        contradiction
    · obtain ⟨id, live, hid, hperm, hchosen, hstep⟩ := cancelAttempts_succ d left attempt s hlen
      have hlength := hperm.length_eq
      rw [List.length_cons] at hlength
      rw [hstep, hchosen]
      by_cases hstale : s.Stale id
      · rw [if_pos hstale]
        have hall {xs : List Nat} (hxs : ∀ j ∈ xs, s.Stale j) : ∀ j ∈ id :: xs, s.Stale j := by
          intro j hj
          rcases List.mem_cons.mp hj with rfl | hj
          · exact hstale
          · exact hxs j hj
        rcases ih (attempt + 1) (s.missed id live) with ⟨hrun, hshort, hgone⟩ |
          ⟨live', hrun, hlong, hgone, hrest⟩ | ⟨stale, j, live', hrun, hj, hthere, hgone, hrest⟩
        · refine Or.inl ⟨hrun, ?_, fun j hj => hall hgone j (hperm.symm.subset hj)⟩
          change live.length < left at hshort
          omega
        · refine Or.inr (Or.inl ⟨live', ?_, ?_, hall hgone, (hrest.cons id).trans hperm⟩)
          · rw [hrun]
            simp [missed]
          · change left ≤ live.length at hlong
            omega
        · refine Or.inr (Or.inr ⟨id :: stale, j, live', ?_, List.mem_cons_of_mem id hj, hthere,
            hall hgone, (hrest.cons id).trans hperm⟩)
          rw [hrun]
          simp [missed]
      · rw [if_neg hstale]
        refine Or.inr (Or.inr ⟨[], id, live, ?_, List.mem_cons_self, hstale,
          fun j hj => absurd hj List.not_mem_nil, hperm⟩)
        simp

/-- The end of a step counts, and clears the list or leaves it. -/
theorem finish_cases (ok : Bool) (s : OrderFlowSimulator) :
    (finish (ok, s)).2 = { s with
        applied := if ok then s.applied + 1 else s.applied
        stepsSinceCompact := s.stepsSinceCompact + 1 } ∨
      (finish (ok, s)).2 = { s with
        applied := if ok then s.applied + 1 else s.applied
        live := s.live.filter fun id => (s.book.findId id).isSome
        stepsSinceCompact := 0 } := by
  cases ok with
  | false =>
    rcases Decidable.em (4096 ≤ s.stepsSinceCompact + 1) with hc | hc
    · exact Or.inr (if_pos hc)
    · exact Or.inl (if_neg hc)
  | true =>
    rcases Decidable.em (4096 ≤ s.stepsSinceCompact + 1) with hc | hc
    · exact Or.inr (if_pos hc)
    · exact Or.inl (if_neg hc)

/-- With room a limit draw adds an order. -/
theorem doLimit_adds (h : s.live.length < s.cfg.cap.toNat) :
    Ends (fun n => doLimit d n s) (.ok (s.addLimit d)) := by
  refine Ends.of_succ ((ends_some _).congr (n := 0) fun n _ => ?_)
  rw [doLimit, if_neg (Nat.not_le.mpr h)]

/-- With live ids a cancel draw tries to cancel one. -/
theorem doCancel_cancels (h : s.live ≠ []) :
    Ends (fun n => doCancel d n s) (cancelAttempts d 8 0 s) := by
  refine Ends.of_succ ((ends_some _).congr (n := 0) fun n _ => ?_)
  rw [doCancel, if_neg h]

/-- Without room a limit draw tries to cancel. -/
theorem doLimit_cancels (hcap : s.cfg.cap.toNat ≤ s.live.length) (h : s.live ≠ []) :
    Ends (fun n => doLimit d n s) (cancelAttempts d 8 0 s) := by
  refine Ends.of_succ ((doCancel_cancels h).congr (n := 0) fun n _ => ?_)
  rw [doLimit, if_pos hcap]

/-- Without live ids a cancel draw adds an order. -/
theorem doCancel_adds (h : s.live = []) (hcap : s.live.length < s.cfg.cap.toNat) :
    Ends (fun n => doCancel d n s) (.ok (s.addLimit d)) := by
  refine Ends.of_succ ((doLimit_adds hcap).congr (n := 0) fun n _ => ?_)
  rw [doCancel, if_pos h]

/-- With nothing to cancel and no room to add, the two functions call each other for ever. -/
theorem circles_none (h : s.live = []) (hcap : s.cfg.cap = 0) (n : Nat) :
    doLimit d n s = none ∧ doCancel d n s = none := by
  induction n with
  | zero => exact ⟨rfl, rfl⟩
  | succ n ih =>
    refine ⟨?_, ?_⟩
    · rw [doLimit, if_pos (by rw [hcap]; exact Nat.zero_le _)]
      exact ih.2
    · rw [doCancel, if_pos h]
      exact ih.1

/-- A step that adds ends with the order in the book. -/
theorem step_adds (h : s.Adds d) : Ends (fun n => s.step n d) (.ok (finish (s.addLimit d))) := by
  obtain ⟨hcap, hkind | ⟨hkind, hlive⟩⟩ := h
  · simp only [step, hkind]
    exact (doLimit_adds hcap).map _
  · simp only [step, hkind]
    exact (doCancel_adds hlive hcap).map _

/-- A step that cancels ends after its attempts. -/
theorem step_cancels (h : s.Cancels d) :
    Ends (fun n => s.step n d) ((cancelAttempts d 8 0 s).map finish) := by
  obtain ⟨hlive, hkind | ⟨hkind, hcap⟩⟩ := h
  · simp only [step, hkind]
    exact (doCancel_cancels hlive).map _
  · simp only [step, hkind]
    exact (doLimit_cancels hcap hlive).map _

/-- A market draw ends with the trade. -/
theorem step_market (hw : s.book.WellFormed) (hkind : d.kind = .market) :
    Ends (fun n => s.step n d) (.ok (finish (true, s.traded d))) := by
  simp only [step, hkind]
  exact ((OrderBook.marketOrder_ends hw d.side (1 + d.size % 4)).map _).map _

/-- A step that circles never ends. -/
theorem step_circles (h : s.Circles d) (n : Nat) : s.step n d = none := by
  obtain ⟨hlive, hcap, hkind⟩ := h
  obtain ⟨hlimit, hcancel⟩ := circles_none (d := d) hlive hcap n
  unfold step
  cases hk : d.kind with
  | limit => simp only [hlimit, Option.map_none]
  | market => exact absurd hk hkind
  | cancel => simp only [hcancel, Option.map_none]

/-- What a step can come to. -/
theorem step_kinds (s : OrderFlowSimulator) (d : Draws) :
    d.kind = .market ∨ s.Adds d ∨ s.Cancels d ∨ s.Circles d := by
  cases hk : d.kind with
  | market => exact Or.inl rfl
  | limit =>
    rcases Nat.lt_or_ge s.live.length s.cfg.cap.toNat with hroom | hfull
    · exact Or.inr (Or.inl ⟨hroom, Or.inl hk⟩)
    · by_cases hlive : s.live = []
      · rw [hlive, List.length_nil] at hfull
        have hcap := Word.toNat_eq_zero.mp (Nat.le_zero.mp hfull)
        exact Or.inr (Or.inr (Or.inr ⟨hlive, hcap, by rw [hk]; nofun⟩))
      · exact Or.inr (Or.inr (Or.inl ⟨hlive, Or.inr ⟨hk, hfull⟩⟩))
  | cancel =>
    by_cases hlive : s.live = []
    · rcases Nat.lt_or_ge s.live.length s.cfg.cap.toNat with hroom | hfull
      · exact Or.inr (Or.inl ⟨hroom, Or.inr ⟨hk, hlive⟩⟩)
      · rw [hlive, List.length_nil] at hfull
        have hcap := Word.toNat_eq_zero.mp (Nat.le_zero.mp hfull)
        exact Or.inr (Or.inr (Or.inr ⟨hlive, hcap, by rw [hk]; nofun⟩))
    · exact Or.inr (Or.inr (Or.inl ⟨hlive, Or.inl hk⟩))

/-- What the event of a step returns, and how it leaves the simulator. -/
inductive Event (s : OrderFlowSimulator) (d : Draws) : Bool → OrderFlowSimulator → Prop
  | market (hkind : d.kind = .market) : Event s d true (s.traded d)
  | add (hadds : s.Adds d) : Event s d (s.addLimit d).1 (s.addLimit d).2
  | miss (hcancels : s.Cancels d) (live : List Nat) (hlong : 8 ≤ s.live.length)
      (hgone : ∀ id ∈ chosen d 8 0 s.live, s.Stale id)
      (hperm : (chosen d 8 0 s.live ++ live).Perm s.live) : Event s d false { s with
        live
        calls := s.calls ++ (chosen d 8 0 s.live).map fun id => (.cancel id, false) }
  | cancel (hcancels : s.Cancels d) (stale : List Nat) (id : Nat) (live : List Nat)
      (hid : id ∈ chosen d 8 0 s.live) (hthere : ¬ s.Stale id) (hgone : ∀ j ∈ stale, s.Stale j)
      (hperm : (stale ++ id :: live).Perm s.live) : Event s d true { s with
        live
        book := (s.book.cancelOrder id).2
        calls := s.calls ++ stale.map (fun id => (.cancel id, false)) ++ [(.cancel id, true)] }

/-- What a step that returns has done. -/
theorem Completes.event (hw : s.book.WellFormed) (h : s.Completes d ok s') :
    ∃ s₁, s.Event d ok s₁ ∧ s' = (finish (ok, s₁)).2 := by
  rcases step_kinds s d with hkind | hadds | hcancels | hcircles
  · obtain ⟨rfl, rfl⟩ := Prod.mk.inj (Except.ok.inj ((step_market hw hkind).unique h))
    exact ⟨_, .market hkind, rfl⟩
  · obtain ⟨rfl, rfl⟩ := Prod.mk.inj (Except.ok.inj ((step_adds hadds).unique h))
    exact ⟨_, .add hadds, rfl⟩
  · have hr := (step_cancels hcancels).unique h
    rcases cancelAttempts_cases d 8 0 s with ⟨hrun, _⟩ | ⟨live, hrun, hlong, hgone, hperm⟩ |
      ⟨stale, id, live, hrun, hid, hthere, hgone, hperm⟩
    · rw [hrun] at hr
      contradiction
    · rw [hrun] at hr
      obtain ⟨rfl, rfl⟩ := Prod.mk.inj (Except.ok.inj hr)
      exact ⟨_, .miss hcancels live hlong hgone hperm, rfl⟩
    · rw [hrun] at hr
      obtain ⟨rfl, rfl⟩ := Prod.mk.inj (Except.ok.inj hr)
      exact ⟨_, .cancel hcancels stale id live hid hthere hgone hperm, rfl⟩
  · exact absurd h (not_ends (step_circles hcircles))

/-- The attempts to cancel run out of ids: all of the list, of less than eight, are gone. -/
def Exhausts (s : OrderFlowSimulator) (d : Draws) : Prop :=
  s.Cancels d ∧ s.live.length < 8 ∧ ∀ id ∈ s.live, s.Stale id

/-- A step whose attempts run out of ids evaluates a remainder by zero. -/
theorem Exhausts.ends (h : s.Exhausts d) : Ends (fun n => s.step n d) (.error .modByZero) := by
  obtain ⟨hcancels, hshort, hgone⟩ := h
  have hends := step_cancels hcancels
  rcases cancelAttempts_cases d 8 0 s with ⟨hrun, _⟩ | ⟨_, _, hlong, _⟩ |
    ⟨stale, id, live, _, _, hthere, _, hperm⟩
  · rw [hrun] at hends
    exact hends
  · omega
  · have hid := hperm.subset (List.mem_append_right stale List.mem_cons_self)
    exact absurd (hgone id hid) hthere

/-- A step returns iff its attempts to cancel do not run out of ids and it does not go round for
ever. -/
theorem completes_iff (hw : s.book.WellFormed) :
    (∃ ok s', s.Completes d ok s') ↔ ¬ s.Exhausts d ∧ ¬ s.Circles d := by
  constructor
  · rintro ⟨ok, s', h⟩
    exact ⟨fun hex => absurd (hex.ends.unique h) nofun, fun hcirc =>
      not_ends (step_circles hcirc) h⟩
  · rintro ⟨hex, hcirc⟩
    rcases step_kinds s d with hkind | hadds | hcancels | hcircles
    · exact ⟨_, _, step_market hw hkind⟩
    · exact ⟨_, _, step_adds hadds⟩
    · have hends := step_cancels hcancels
      rcases cancelAttempts_cases d 8 0 s with ⟨_, hshort, hgone⟩ | ⟨_, hrun, _⟩ |
        ⟨_, _, _, hrun, _⟩
      · exact absurd ⟨hcancels, hshort, hgone⟩ hex
      · rw [hrun] at hends
        exact ⟨_, _, hends⟩
      · rw [hrun] at hends
        exact ⟨_, _, hends⟩
    · exact absurd hcircles hcirc

end Lob.OrderFlowSimulator
