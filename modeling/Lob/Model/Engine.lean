import Mathlib.Data.List.Sort
import Lob.Model.Book

/-!
# Matching policies and the matching engine

`MatchingEngine` keeps a list of pending stops next to the one in the book, and
calls itself through `process_triggers`. The event log is a history variable:
it records what was done and nothing in the engine reads it.
-/

namespace Lob

/-- `FIFOStack` and `ProRataPolicy`. -/
inductive MatchingPolicy where
  | fifoStack
  | proRata (minFill : Qty)
  deriving DecidableEq, Repr

namespace ProRata

/-- Floor shares of the incoming quantity, in the level's FIFO order. -/
def baseAlloc (total qty : Qty) (sizes : List Qty) : List Qty :=
  sizes.map fun s => s * qty / total

/-- Division remainders of the shares. -/
def remainders (total qty : Qty) (sizes : List Qty) : List Qty :=
  sizes.map fun s => s * qty % total

/-- The sort order of leftover units: remainder descending, then order id ascending. -/
def before (x y : Qty × Nat) : Bool :=
  if x.1 ≠ y.1 then decide (y.1 < x.1) else decide (x.2 ≤ y.2)

/-- Positions in the order they receive the leftover units. `std::sort` need not be stable, but the
keys of a level have different ids, and then there is one order only (`ranking_unique`). -/
def ranking (rems : List (Qty × Nat)) : List Nat :=
  (List.range rems.length).insertionSort fun i j =>
    before (rems.getD i (0, 0)) (rems.getD j (0, 0)) = true

/-- The allocation computed by `ProRataPolicy::match` before it is applied. -/
def alloc (minFill qty : Qty) (ids : List Nat) (sizes : List Qty) : List Qty :=
  let total := sizes.sum
  let base := baseAlloc total qty sizes
  let sum := base.sum
  let leftover := if sum < qty then qty - sum else 0
  let lucky := (ranking ((remainders total qty sizes).zip ids)).take leftover.toNat
  let shares := base.mapIdx fun i a => if i ∈ lucky then a + 1 else a
  shares.map fun a => if a < minFill then 0 else a

/-- The loop of `ProRataPolicy::match` that applies the allocation in FIFO order. -/
def apply (px : Int) : List (Ptr × Qty) → List Fill × OrderBook → List Fill × OrderBook
  | [], r => r
  | (o, a) :: rest, (fills, b) =>
    if a = 0 then apply px rest (fills, b)
    else
      let id := (b.mem o).orderId
      let (filled, b) := b.applyFill id a
      apply px rest (if 0 < filled then fills ++ [⟨id, px, filled⟩] else fills, b)

/-- `ProRataPolicy::match`. -/
def «match» (minFill : Qty) (b : OrderBook) (side : Side) (qty : Qty) : List Fill × OrderBook :=
  match b.best side.opposite with
  | none => ([], b)
  | some px =>
    let orders := b.getLevelOrders side.opposite px
    let sizes := orders.map fun o => (b.mem o).remainingQty
    if orders = [] ∨ sizes.sum = 0 then ([], b)
    else
      let ids := orders.map fun o => (b.mem o).orderId
      apply px (orders.zip (alloc minFill qty ids sizes)) ([], b)

end ProRata

/-- `MatchingPolicy::match`. -/
def MatchingPolicy.run (p : MatchingPolicy) (b : OrderBook) (side : Side) (qty : Qty) :
    List Fill × OrderBook :=
  match p with
  | .fifoStack => b.marketOrder side qty
  | .proRata minFill => ProRata.match minFill b side qty

/-- What an engine run has done, oldest first. -/
inductive Event where
  /-- `submit_limit` returned `id`. -/
  | limit (id : Nat) (side : Side) (price : Int) (qty display : Qty)
  /-- `submit_market` matched and obtained `fills`. -/
  | market (side : Side) (qty : Qty) (fills : List Fill)
  /-- `submit_stop` returned `id`. -/
  | stop (id : Nat) (side : Side) (stopPrice : Int) (qty : Qty) (stopType : StopType)
      (limitPrice : Int) (display : Qty)
  /-- `cancel_order` returned true. -/
  | cancel (id : Nat)
  /-- `process_triggers` activates stop `id` at a last trade price; `pass` is the length of
  the log when this pass over the queue began. -/
  | trigger (id : Nat) (last : Int) (pass : Nat)
  /-- `process_triggers` reads a queue entry whose stop has been freed. -/
  | staleRead (o : Ptr)
  deriving DecidableEq, Repr

/-- `class MatchingEngine`. -/
structure MatchingEngine where
  book : OrderBook
  policy : MatchingPolicy
  pendingStops : List Ptr
  log : List Event

namespace MatchingEngine

def new (book : OrderBook) (policy : MatchingPolicy := .fifoStack) : MatchingEngine :=
  { book, policy, pendingStops := [], log := [] }

/-- Append to the history. -/
def record (e : MatchingEngine) (x : Event) : MatchingEngine := { e with log := e.log ++ [x] }

/-- `MatchingEngine::submit_limit`. -/
def submitLimit (e : MatchingEngine) (side : Side) (price : Int) (qty : Qty)
    (display : Qty := 0) : Nat × MatchingEngine :=
  let (id, book) := e.book.addLimitOrder side price qty
  let book := if 0 < display then (book.configureIceberg id display).2 else book
  (id, { e with book }.record (.limit id side price qty display))

/-- `MatchingEngine::submit_stop`. -/
def submitStop (e : MatchingEngine) (side : Side) (stopPrice : Int) (qty : Qty)
    (stopType : StopType) (limitPrice : Int := 0) (display : Qty := 0) :
    Nat × MatchingEngine :=
  let (id, book) := e.book.addPendingStop side stopPrice qty stopType limitPrice display
  let e := { e with book }.record (.stop id side stopPrice qty stopType limitPrice display)
  if id = 0 then (0, e)
  else
    match e.book.findId id with
    | some o => (id, { e with pendingStops := e.pendingStops ++ [o] })
    | none => (id, e)

/-- The trigger condition of a stop at a last trade price. -/
def triggered (last : Int) (x : Order) : Bool :=
  match x.side with
  | .buy => decide (x.stopPrice ≤ last)
  | .sell => decide (last ≤ x.stopPrice)

/-- The slot holds a stop that is registered and not yet activated. -/
def pendingStop (b : OrderBook) (o : Ptr) : Bool :=
  decide ((b.mem o).stopType ≠ .none) && decide (b.findId (b.mem o).orderId = some o)

/-- `book_.detach_pending` and `book_.free_order` of a triggered stop; the fields the
activation uses are read in between. -/
def detach (e : MatchingEngine) (o : Ptr) : Option Order × MatchingEngine :=
  let (detached, book) := e.book.detachPending (e.book.mem o).orderId
  match detached with
  | none => (none, { e with book })
  | some d => (some (book.mem d), { e with book := book.freeOrder (some d) })

/-- One iteration of the queue loop of `process_triggers`, on the entry `o`. -/
def triggerEntry (submit : MatchingEngine → Side → Qty → MatchingEngine) (last : Int)
    (pass : Nat) (e : MatchingEngine) (o : Ptr) : MatchingEngine :=
  let e := if pendingStop e.book o then e else e.record (.staleRead o)
  let x := e.book.mem o
  match x.stopType with
  | .none => e
  | .stopMarket =>
    if triggered last x then
      match e.detach o with
      | (none, e) => e
      | (some d, e) => submit (e.record (.trigger d.orderId last pass)) x.side d.qty
    else { e with pendingStops := e.pendingStops ++ [o] }
  | .stopLimit =>
    if triggered last x then
      match e.detach o with
      | (none, e) => e
      | (some d, e) =>
        ((e.record (.trigger d.orderId last pass)).submitLimit x.side d.price d.qty
          d.displayQty).2
    else { e with pendingStops := e.pendingStops ++ [o] }

/-- `MatchingEngine::process_triggers`, over the `submit_market` it calls. -/
def processTriggers (submit : MatchingEngine → Side → Qty → MatchingEngine)
    (e : MatchingEngine) (last : Int) : MatchingEngine :=
  let (fromBook, book) := e.book.takePendingStops
  let q := e.pendingStops ++ fromBook
  q.foldl (triggerEntry submit last e.log.length) { e with book, pendingStops := [] }

/-- `MatchingEngine::submit_market` with a bound on the depth of its recursion through
`process_triggers`. -/
def submitMarketDepth : Nat → MatchingEngine → Side → Qty → List Fill × MatchingEngine
  | 0, e, _, _ => ([], e)
  | depth + 1, e, side, qty =>
    let (fills, book) := e.policy.run e.book side qty
    let e := { e with book }.record (.market side qty fills)
    match fills.getLast? with
    | none => (fills, e)
    | some f =>
      (fills, processTriggers (fun e side qty => (submitMarketDepth depth e side qty).2) e f.price)

/-- Every nested call activates a stop that is queued in one of the two lists. -/
def depthBound (e : MatchingEngine) : Nat :=
  e.pendingStops.length + e.book.pendingStopStorage.length + 1

/-- `MatchingEngine::submit_market`. -/
def submitMarket (e : MatchingEngine) (side : Side) (qty : Qty) : List Fill × MatchingEngine :=
  submitMarketDepth e.depthBound e side qty

/-- `cancel_order` on the engine's book. -/
def cancelOrder (e : MatchingEngine) (id : Nat) : Bool × MatchingEngine :=
  let (ok, book) := e.book.cancelOrder id
  (ok, if ok then { e with book }.record (.cancel id) else { e with book })

end MatchingEngine

end Lob
