import Mathlib.Data.Set.Card
import Lob.Core.Trigger
import Lob.Representation.Fills

/-!
# The trigger cascade as a machine

`submit_market` and `process_triggers` call each other. Their recursion is unrolled
into steps on an engine and a stack of queue entries: a step takes one entry, and
the queue of a nested call is put in front of the entries that wait in the outer
calls. The recursive engine and the machine reach the same result.
-/

namespace Lob

/-- An entry of a queue of `process_triggers`: the slot, the last trade price and the pass. -/
abbrev Task := Trigger.Task Ptr Int

/-- An engine inside a call, with the queue entries the running calls have left. -/
structure Config where
  engine : MatchingEngine
  tasks : List Task

namespace MatchingEngine

/-- The fills a market order obtains. -/
def batch (e : MatchingEngine) (side : Side) (qty : Qty) : List Fill :=
  (e.policy.run e.book side qty).1

/-- The engine after the policy has matched a market order. -/
def matched (e : MatchingEngine) (side : Side) (qty : Qty) : MatchingEngine :=
  { e with book := (e.policy.run e.book side qty).2 }.record (.market side qty (e.batch side qty))

/-- The price a market order's batch of fills ends at. -/
def lastPrice (e : MatchingEngine) (side : Side) (qty : Qty) : Option Int :=
  (e.batch side qty).getLast?.map Fill.price

/-- The engine after stop `id` in slot `o` has been detached, freed and logged. -/
def fire (e : MatchingEngine) (id : Nat) (o : Ptr) (last : Int) (pass : Nat) : MatchingEngine :=
  { e with book := (e.book.detachPending id).2.freeOrder (some o) }.record (.trigger id last pass)

/-- The engine after a queue entry has been put back. -/
def requeue (e : MatchingEngine) (o : Ptr) : MatchingEngine :=
  { e with pendingStops := e.pendingStops ++ [o] }

/-- A freed slot that still looks like a stop the price does not trigger. -/
def keeps (e : MatchingEngine) (t : Task) : Bool :=
  decide ((e.book.mem t.slot).stopType ≠ .none) && !triggered t.last (e.book.mem t.slot)

/-- The engine after reading a queue entry whose stop has been freed. -/
def stale (e : MatchingEngine) (t : Task) : MatchingEngine :=
  if e.keeps t then (e.record (.staleRead t.slot)).requeue t.slot
  else e.record (.staleRead t.slot)

end MatchingEngine

namespace Config

/-- `process_triggers` fills its queue. -/
def begin (e : MatchingEngine) (last : Int) (K : List Task) : Config :=
  { engine := { e with book := e.book.takePendingStops.2, pendingStops := [] }
    tasks := ((e.pendingStops ++ e.book.pendingStopStorage).map fun o =>
      ⟨o, last, e.log.length⟩) ++ K }

/-- `submit_market` up to the loop of `process_triggers`. -/
def launch (e : MatchingEngine) (side : Side) (qty : Qty) (K : List Task) : Config :=
  match e.lastPrice side qty with
  | none => ⟨e.matched side qty, K⟩
  | some last => begin (e.matched side qty) last K

/-- The loop of `process_triggers` takes its next entry. -/
inductive Step : Config → Config → Prop
  | stale (e : MatchingEngine) (t : Task) (K : List Task) :
      (∀ id x, e.book.stopSlot id ≠ some (t.slot, x)) →
      Step ⟨e, t :: K⟩ ⟨e.stale t, K⟩
  | requeue (e : MatchingEngine) (t : Task) (K : List Task) (id : Nat) (x : Order) :
      e.book.stopSlot id = some (t.slot, x) → MatchingEngine.triggered t.last x = false →
      Step ⟨e, t :: K⟩ ⟨e.requeue t.slot, K⟩
  | market (e : MatchingEngine) (t : Task) (K : List Task) (id : Nat) (x : Order) :
      e.book.stopSlot id = some (t.slot, x) → MatchingEngine.triggered t.last x = true →
      x.stopType = .stopMarket →
      Step ⟨e, t :: K⟩ (launch (e.fire id t.slot t.last t.pass) x.side x.qty K)
  | limit (e : MatchingEngine) (t : Task) (K : List Task) (id : Nat) (x : Order) :
      e.book.stopSlot id = some (t.slot, x) → MatchingEngine.triggered t.last x = true →
      x.stopType = .stopLimit →
      Step ⟨e, t :: K⟩
        ⟨((e.fire id t.slot t.last t.pass).submitLimit x.side x.price x.qty x.displayQty).2, K⟩

/-- Several steps. -/
abbrev Steps : Config → Config → Prop := Relation.ReflTransGen Step

/-- The book is well formed and its own list of stops has been taken. -/
structure Sound (c : Config) : Prop where
  wf : c.engine.book.WellFormed
  storage : c.engine.book.pendingStopStorage = []

end Config

namespace MatchingEngine

variable {e : MatchingEngine} {side : Side} {price last : Int} {qty display : Qty} {id pass : Nat}
  {o p : Ptr} {x : Order} {K : List Task} {t : Task}

@[simp] theorem book_record (a : Event) : (e.record a).book = e.book := rfl

@[simp] theorem pendingStops_record (a : Event) : (e.record a).pendingStops = e.pendingStops := rfl

@[simp] theorem log_record (a : Event) : (e.record a).log = e.log ++ [a] := rfl

@[simp] theorem book_stale : (e.stale t).book = e.book := by
  rw [stale]
  split <;> rfl

@[simp] theorem log_stale : (e.stale t).log = e.log ++ [.staleRead t.slot] := by
  rw [stale]
  split <;> rfl

/-- Matching does to the queues what the policy does. -/
theorem matched_refines (h : e.book.WellFormed) (side : Side) (qty : Qty) :
    OrderBook.Refines e.book (e.matched side qty).book
      (e.book.queues.run e.policy side qty).2 :=
  (h.run e.policy side qty).2

section Limit

/-- What `submit_limit` does to the queues. -/
def limitQueues (e : MatchingEngine) (side : Side) (price : Int) (qty display : Qty) :
    Queue.Book :=
  if e.book.pool.allocate.isSome then
    if 0 < display then
      (e.book.queues.add side price qty).configure e.book.nextOrderId display
    else e.book.queues.add side price qty
  else e.book.queues

/-- The id `submit_limit` returns. -/
def limitId (e : MatchingEngine) : Nat :=
  if e.book.pool.allocate.isSome then e.book.nextOrderId else 0

theorem findId_zero (h : e.book.WellFormed) : e.book.findId 0 = none := by
  cases hf : e.book.findId 0 with
  | none => rfl
  | some q => exact absurd (h.table 0 q hf).2 (Nat.lt_irrefl 0)

/-- An id that has not been given out names no stop. -/
theorem stopSlot_of_ge (h : e.book.WellFormed) (hid : e.book.nextOrderId ≤ id) :
    e.book.stopSlot id = none := by
  rw [OrderBook.stopSlot]
  cases hf : e.book.findId id with
  | none => rfl
  | some q => exact absurd (h.id_lt hf) (by omega)

/-- `submit_limit` adds an order and splits it. -/
theorem submitLimit_refines (h : e.book.WellFormed) (side : Side) (price : Int)
    (qty display : Qty) :
    (e.submitLimit side price qty display).1 = e.limitId ∧
      OrderBook.Refines e.book (e.submitLimit side price qty display).2.book
        (e.limitQueues side price qty display) := by
  cases ha : e.book.pool.allocate with
  | none =>
    have hconf : (e.book.configureIceberg 0 display).2 = e.book := by
      rw [OrderBook.configureIceberg, findId_zero h]
    simp only [submitLimit, OrderBook.addLimitOrder_full ha, hconf, ite_self, limitId, limitQueues,
      ha, Option.isSome_none, Bool.false_eq_true, ite_false]
    exact ⟨trivial, OrderBook.Refines.refl h⟩
  | some r =>
    have hadd := OrderBook.addLimitOrder_refines (o := r.1) ha h side price qty
    have hid : (e.book.addLimitOrder side price qty).1 = e.book.nextOrderId := by
      rw [OrderBook.addLimitOrder_eq (o := r.1) ha]
    have hstop : (e.book.addLimitOrder side price qty).2.stopSlot e.book.nextOrderId = none := by
      rw [hadd.stops]
      exact stopSlot_of_ge h (Nat.le_refl _)
    refine ⟨?_, ?_⟩
    · simp only [submitLimit, hid, limitId, ha, Option.isSome_some, if_true]
    · simp only [limitQueues, ha, Option.isSome_some, if_true, submitLimit, book_record, hid]
      split
      · next hd =>
        have hconf := hadd.wf.configureIceberg hstop display
        rw [hadd.queues] at hconf
        exact hadd.trans hconf
      · exact hadd

@[simp] theorem log_submitLimit : (e.submitLimit side price qty display).2.log =
    e.log ++ [.limit (e.submitLimit side price qty display).1 side price qty display] := rfl

end Limit

end MatchingEngine

end Lob
