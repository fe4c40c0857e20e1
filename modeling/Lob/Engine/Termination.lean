import Lob.Core.Fuel
import Lob.Model.Branches
import Lob.Engine.Runs

/-!
# Market orders terminate

With enough fuel the loops of `market_order` and the recursion of `submit_market`
through `process_triggers` are over. An iteration of the first removes quantity,
a level, an order or an emptied slice; a nested call of the second has one
registered stop less.
-/

namespace Lob

open Fuel

namespace OrderBook

variable {b : OrderBook}

/-- Both loops of `market_order` end on a well-formed book. -/
theorem marketOrder_ends (h : b.WellFormed) (side : Side) (qty : Qty) :
    Ends (fun n => Branches.marketOrder n b side qty) (b.marketOrder side qty) := by
  have hdone := h.marketOrder_done side qty
  rw [sweep_eq_run] at hdone
  have hends := (ends_run hdone).map fun w => (w.fills, w.book)
  have hbranch (n : Nat) : Branches.marketOrder n b side qty =
      (if (Loop.run (Sweep.active side.opposite) (sweepStep side.opposite) n
          ⟨b, qty, []⟩).active side.opposite then none
        else some (Loop.run (Sweep.active side.opposite) (sweepStep side.opposite) n
          ⟨b, qty, []⟩)).map fun w => (w.fills, w.book) := by
    rw [Branches.marketOrder_eq, sweep_eq_run]
    split <;> rfl
  simp only [hbranch, marketOrder, sweep_eq_run]
  exact hends

/-- The walk of `get_level_orders` ends: the slots bound the orders of a level. -/
theorem getLevelOrders_ends (h : b.WellFormed) (s : Side) (px : Int) {n : Nat}
    (hn : b.pool.slots ≤ n) :
    Branches.getLevelOrders n b s px = some (b.getLevelOrders s px) := by
  rw [Branches.getLevelOrders_eq]
  cases hl : b.findLevel s px with
  | none =>
    rw [getLevelOrders, hl]
  | some r =>
    obtain ⟨i, l⟩ := r
    rw [h.getLevelOrders_eq hl]
    exact h.walk_level (h.findLevel_eq_some.mp hl) hn

theorem run_ends (h : b.WellFormed) (p : MatchingPolicy) (side : Side) (qty : Qty) :
    Ends (fun n => Branches.run n p b side qty) (p.run b side qty) := by
  cases p with
  | fifoStack => exact marketOrder_ends h side qty
  | proRata minFill =>
    refine (ends_some _).congr (n := b.pool.slots) fun n hn => ?_
    exact Branches.proRataMatch_eq b (fun px => getLevelOrders_ends h side.opposite px hn)
      minFill qty

end OrderBook

namespace MatchingEngine

variable {e : MatchingEngine} {o : Ptr} {depth : Nat}

/-- Inside a pass: the book is well formed, its own list is empty, and no more than `depth` stops
are registered. -/
structure InPass (depth : Nat) (e : MatchingEngine) : Prop where
  wf : e.book.WellFormed
  storage : e.book.pendingStopStorage = []
  stops : e.stops.ncard ≤ depth

/-- `submit_market` as the passes call it. -/
def nested (depth : Nat) (e : MatchingEngine) (side : Side) (qty : Qty) : MatchingEngine :=
  (submitMarketDepth depth e side qty).2

/-- An iteration of the queue loop keeps the pass going. -/
theorem InPass.triggerEntry (h : e.InPass depth) (last : Int) (pass : Nat) (o : Ptr) :
    (triggerEntry (nested depth) last pass e o).InPass depth := by
  have hsound : Config.Sound ⟨e, [⟨o, last, pass⟩]⟩ := ⟨h.wf, h.storage⟩
  have hsteps : Config.Steps ⟨e, [⟨o, last, pass⟩]⟩
      ⟨MatchingEngine.triggerEntry (nested depth) last pass e o, []⟩ :=
    Config.triggerEntry_steps hsound fun id x hx =>
      (Config.submitMarketDepth_steps depth (fire_wellFormed h.wf h.storage hx)
        (Nat.lt_of_lt_of_le (fire_ncard h.wf h.storage hx) h.stops) x.side x.qty []).1
  have hnext := Config.Steps.sound hsteps hsound
  have hcard := Set.ncard_le_ncard (Config.Steps.stops_subset hsteps hsound) (stops_finite h.wf)
  exact ⟨hnext.wf, hnext.storage, Nat.le_trans hcard h.stops⟩

/-- What `detach_pending` finds is a registered stop. -/
theorem InPass.detach (h : e.InPass depth) (hs : (e.book.mem o).stopType ≠ .none) {d : Order}
    {e' : MatchingEngine} (hd : e.detach o = (some d, e')) (last : Int) (pass : Nat) :
    ∃ id x, e.book.stopSlot id = some (o, x) ∧
      e'.record (.trigger d.orderId last pass) = e.fire id o last pass := by
  by_cases hlive : ∃ id x, e.book.stopSlot id = some (o, x)
  · obtain ⟨id, x, hx⟩ := hlive
    obtain ⟨hid, hdet⟩ := Config.detach_eq hx h.wf h.storage
    rw [hdet] at hd
    obtain ⟨rfl, rfl⟩ : e.book.mem o = d ∧
        ({ e with book := (e.book.detachPending id).2.freeOrder (some o) } : MatchingEngine) =
          e' := by
      simpa using hd
    refine ⟨id, x, hx, ?_⟩
    rw [hid]
    rfl
  · have hnone : ∀ id x, e.book.stopSlot id ≠ some (o, x) := fun id x hx => hlive ⟨id, x, hx⟩
    rw [Config.detach_stale h.wf h.storage hs hnone] at hd
    simp at hd

/-- `submit_market` as the passes call it, when its loops end within `n` iterations. -/
def nestedWithin (n : Nat) (e : MatchingEngine) (side : Side) (qty : Qty) :
    Option MatchingEngine :=
  (Branches.submitMarket n e side qty).map Prod.snd

/-- Nested calls end as long as they have fewer stops than `depth`. -/
def NestedEnds (depth : Nat) : Prop :=
  ∀ (e : MatchingEngine) (side : Side) (qty : Qty), e.book.WellFormed → e.stops.ncard < depth →
    Ends (fun n => nestedWithin n e side qty) (nested depth e side qty)

/-- The body of the queue loop ends: it calls `submit_market` for a stop that it has freed. -/
theorem InPass.triggerEntry_ends (h : e.InPass depth) (hnested : NestedEnds depth) (last : Int)
    (pass : Nat) (o : Ptr) :
    Ends (fun n => Branches.triggerEntry (nestedWithin n) last pass e o)
      (MatchingEngine.triggerEntry (nested depth) last pass e o) := by
  have hread : (if pendingStop e.book o then e else e.record (.staleRead o)).InPass depth := by
    split
    · exact h
    · exact ⟨h.wf, h.storage, h.stops⟩
  unfold Branches.triggerEntry MatchingEngine.triggerEntry Branches.visit
  generalize (if pendingStop e.book o then e else e.record (.staleRead o)) = e₁ at hread
  dsimp only
  cases hty : (e₁.book.mem o).stopType with
  | none => exact ends_some _
  | stopMarket =>
    cases triggered last (e₁.book.mem o) with
    | false => exact ends_some _
    | true =>
      cases hd : e₁.detach o with
      | mk found e₂ =>
        cases found with
        | none => exact ends_some _
        | some d =>
          have hstop : (e₁.book.mem o).stopType ≠ .none := by
            rw [hty]
            exact StopType.noConfusion
          obtain ⟨id, x, hx, hfire⟩ := hread.detach hstop hd last pass
          simp only [if_true, hfire]
          exact hnested _ _ _ (fire_wellFormed hread.wf hread.storage hx)
            (Nat.lt_of_lt_of_le (fire_ncard hread.wf hread.storage hx) hread.stops)
  | stopLimit =>
    cases triggered last (e₁.book.mem o) with
    | false => exact ends_some _
    | true =>
      cases e₁.detach o with
      | mk found e₂ =>
        cases found with
        | none => exact ends_some _
        | some d => exact ends_some _

/-- The queue loop ends. -/
theorem processTriggers_ends (hw : e.book.WellFormed) (hcard : e.stops.ncard ≤ depth)
    (hnested : NestedEnds depth) (last : Int) :
    Ends (fun n => Branches.processTriggers (nestedWithin n) e last)
      (processTriggers (nested depth) e last) := by
  have hbook : (Config.begin e last []).engine.book.WellFormed := Config.begin_wellFormed hw
  have hbegin : (Config.begin e last []).engine.InPass depth := ⟨hbook, rfl, hcard⟩
  exact Ends.foldlM (fun _ o h => h.triggerEntry_ends hnested last e.log.length o)
    (fun _ o h => h.triggerEntry last e.log.length o) _ hbegin

/-- A market order ends when the recursion may be deeper than there are stops. -/
theorem submitMarketDepth_ends (depth : Nat) (hw : e.book.WellFormed)
    (hdepth : e.stops.ncard < depth) (side : Side) (qty : Qty) :
    Ends (fun n => Branches.submitMarket n e side qty) (submitMarketDepth depth e side qty) := by
  induction depth generalizing e side qty with
  | zero => omega
  | succ depth ih =>
    have hm := matched_refines hw side qty
    have hnested : NestedEnds depth := fun e side qty hw hd => (ih hw hd side qty).map Prod.snd
    refine Ends.of_succ ?_
    obtain ⟨k, hk⟩ := OrderBook.run_ends hw e.policy side qty
    rw [submitMarketDepth]
    cases hlast : (e.batch side qty).getLast? with
    | none =>
      rw [batch] at hlast
      refine (ends_some _).congr (n := k) fun m hm => ?_
      simp only [Branches.submitMarket, hk m hm, hlast]
    | some f =>
      rw [batch] at hlast
      have hcard : (e.matched side qty).stops.ncard ≤ depth := by
        rw [stops_congr hm.stops]
        exact Nat.le_of_lt_succ hdepth
      have hpass := processTriggers_ends hm.wf hcard hnested f.price
      have hends := hpass.map fun e' => (e.batch side qty, e')
      simp only [hlast]
      refine hends.congr (n := k) fun m hm => ?_
      simp only [Branches.submitMarket, hk m hm, hlast]
      rfl

/-- In every reachable state every market order terminates: with enough fuel all loops and
nested calls are over. -/
theorem reachable_terminates {capacity : Nat} {mode : AllocMode} {policy : MatchingPolicy}
    (h : Reachable capacity mode policy e) (side : Side) (qty : Qty) :
    Ends (fun n => Branches.submitMarket n e side qty) (e.submitMarket side qty) :=
  submitMarketDepth_ends e.depthBound h.settled.wf h.settled.filed.ncard_stops side qty

/-- An iceberg, an order of quantity zero, and two buy stops that the trade at 100 triggers. -/
def stopsOverIceberg : List Call :=
  [.limit .sell 100 5 2, .limit .sell 100 0 0, .limit .sell 101 1 0,
    .stop .buy 100 2 .stopMarket 0 0, .stop .buy 99 1 .stopLimit 98 0]

/-- The stop-market order takes slices of the iceberg inside the pass of the first trade. -/
theorem reachable_terminates_iceberg :
    Ends (fun n => Branches.submitMarket n
        (stopsOverIceberg.foldl apply (new (OrderBook.new 8) .fifoStack)) .buy 3)
      ((stopsOverIceberg.foldl apply (new (OrderBook.new 8) .fifoStack)).submitMarket .buy 3) :=
  have hreach : Reachable 8 .pool .fifoStack
      (stopsOverIceberg.foldl apply (new (OrderBook.new 8) .fifoStack)) :=
    Run.Reach.foldl Run.Reach.init (by decide +kernel)
  reachable_terminates hreach .buy 3

end MatchingEngine

end Lob
