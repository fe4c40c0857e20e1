import Lob.Core.Ladder
import Lob.Model.Order

/-!
# The order book

`OrderBook` with its pool, its dense id table and its two price ladders. The
source writes each side's branch out; here the two copies are one definition
that takes the side, since they differ only in the ladder they name.
-/

namespace Lob

inductive AllocMode where
  | pool
  | heap
  deriving DecidableEq, Repr

/-- `class OrderPool`. In `Heap` mode `brk` names the block the next `operator new` returns. -/
structure OrderPool where
  capacity : Nat
  mode : AllocMode
  /-- Free slots, the top of the stack first. -/
  freelist : List Ptr
  brk : Ptr
  deriving DecidableEq, Repr

namespace OrderPool

/-- The constructor pushes the slots in address order. -/
def new (capacity : Nat) (mode : AllocMode) : OrderPool :=
  { capacity, mode, brk := 0
    freelist := match mode with
      | .pool => (List.range capacity).reverse
      | .heap => [] }

/-- The slots that have been handed out so far are below this number. -/
def slots (p : OrderPool) : Nat :=
  match p.mode with
  | .pool => p.capacity
  | .heap => p.brk

/-- `OrderPool::allocate`; the caller zeroes the slot. -/
def allocate (p : OrderPool) : Option (Ptr × OrderPool) :=
  match p.mode with
  | .heap => some (p.brk, { p with brk := p.brk + 1 })
  | .pool =>
    match p.freelist with
    | [] => none
    | o :: free => some (o, { p with freelist := free })

/-- `OrderPool::deallocate`. -/
def deallocate (p : OrderPool) (o : Ptr) : OrderPool :=
  match p.mode with
  | .heap => p
  | .pool => { p with freelist := o :: p.freelist }

end OrderPool

/-- `BidCmp` for bids and `std::less` for asks. -/
def Side.cmp : Side → Int → Int → Bool
  | .buy => fun a b => decide (b < a)
  | .sell => fun a b => decide (a < b)

/-- Both comparators are strict total orders on prices. -/
theorem Side.cmp_strict (s : Side) : Ladder.StrictCmp s.cmp where
  irrefl a := by cases s <;> simp [cmp]
  trans a b c := by cases s <;> simp only [cmp, decide_eq_true_eq] <;> omega
  total a b := by cases s <;> simp only [cmp, decide_eq_true_eq] <;> omega

/-- `PriceLadder`: price levels, best first. -/
abbrev PriceLadder := List (Int × PriceLevel)

/-- `class OrderBook`, together with the contents of its order buffer. -/
structure OrderBook where
  mem : Memory
  bids : PriceLadder
  asks : PriceLadder
  idSlots : List (Option Ptr)
  nextOrderId : Nat
  pool : OrderPool
  pendingStopStorage : List Ptr

namespace OrderBook

/-- `OrderBook::OrderBook`. -/
def new (expectedOrders : Nat) (alloc : AllocMode := .pool) : OrderBook :=
  { mem := fun _ => {}
    bids := []
    asks := []
    idSlots := List.replicate (expectedOrders * 2 + 8) none
    nextOrderId := 1
    pool := OrderPool.new expectedOrders alloc
    pendingStopStorage := [] }

/-- The ladder a side's branch works on. -/
def ladder (b : OrderBook) : Side → PriceLadder
  | .buy => b.bids
  | .sell => b.asks

def setLadder (b : OrderBook) : Side → PriceLadder → OrderBook
  | .buy, v => { b with bids := v }
  | .sell, v => { b with asks := v }

/-- `ladder.find(px)` on one side. -/
def findLevel (b : OrderBook) (s : Side) (px : Int) : Option (Nat × PriceLevel) :=
  Ladder.find s.cmp px (b.ladder s)

/-- Write through the iterator at position `i`. -/
def setLevel (b : OrderBook) (s : Side) (i : Nat) (px : Int) (l : PriceLevel) : OrderBook :=
  b.setLadder s ((b.ladder s).set i (px, l))

/-- `ladder.erase(it)` at position `i`. -/
def eraseLevel (b : OrderBook) (s : Side) (i : Nat) : OrderBook :=
  b.setLadder s ((b.ladder s).eraseIdx i)

/-- `ladder.erase_price(px)`. -/
def erasePrice (b : OrderBook) (s : Side) (px : Int) : OrderBook :=
  b.setLadder s (Ladder.eraseKey s.cmp px (b.ladder s))

/-- Rewrite the order in slot `o`. -/
def writeOrder (b : OrderBook) (o : Ptr) (f : Order → Order) : OrderBook :=
  { b with mem := b.mem.modify o f }

/-- `OrderBook::find_id`. -/
def findId (b : OrderBook) (id : Nat) : Option Ptr :=
  if b.idSlots.length ≤ id then none else (b.idSlots[id]?).join

/-- `OrderBook::put_id`; the table at least doubles when it has to grow. -/
def putId (b : OrderBook) (o : Ptr) : OrderBook :=
  let id := (b.mem o).orderId
  let slots := if b.idSlots.length ≤ id then
      b.idSlots ++ List.replicate (max (id + 1) (b.idSlots.length * 2) - b.idSlots.length) none
    else b.idSlots
  { b with idSlots := slots.set id (some o) }

/-- `OrderBook::drop_id`. -/
def dropId (b : OrderBook) (id : Nat) : OrderBook :=
  if id < b.idSlots.length then { b with idSlots := b.idSlots.set id none } else b

/-- `pool_.allocate()`, zeroing the slot it returns. -/
def allocate (b : OrderBook) : Option (Ptr × OrderBook) :=
  match b.pool.allocate with
  | none => none
  | some (o, pool) => some (o, { b with pool, mem := b.mem.modify o fun _ => {} })

/-- `pool_.deallocate(o)`; the slot keeps its contents. -/
def deallocate (b : OrderBook) (o : Ptr) : OrderBook :=
  { b with pool := b.pool.deallocate o }

/-- `OrderBook::add_pending_stop`. -/
def addPendingStop (b : OrderBook) (side : Side) (stopPrice : Int) (qty : Qty)
    (stopType : StopType) (limitPrice : Int) (display : Qty) : Nat × OrderBook :=
  match b.allocate with
  | none => (0, b)
  | some (o, b) =>
    let id := b.nextOrderId
    let b := { b with nextOrderId := id + 1 }
    let b := b.writeOrder o fun x =>
      { x with orderId := id, side, stopPrice, stopType, price := limitPrice, qty,
               remainingQty := qty, displayQty := display,
               hiddenQty := if 0 < display ∧ display < qty then qty - display else 0 }
    let b := b.putId o
    (id, { b with pendingStopStorage := b.pendingStopStorage ++ [o] })

/-- `OrderBook::take_pending_stops`. -/
def takePendingStops (b : OrderBook) : List Ptr × OrderBook :=
  (b.pendingStopStorage, { b with pendingStopStorage := [] })

/-- `OrderBook::detach_pending`. -/
def detachPending (b : OrderBook) (id : Nat) : Option Ptr × OrderBook :=
  let found := b.pendingStopStorage.find? fun o => (b.mem o).orderId = id
  let b := { b with pendingStopStorage :=
    b.pendingStopStorage.eraseP fun o => (b.mem o).orderId = id }
  match b.findId id with
  | some mapped => (found.or (some mapped), b.dropId id)
  | none => (found, b)

/-- `OrderBook::free_order`. -/
def freeOrder (b : OrderBook) (o : Option Ptr) : OrderBook :=
  match o with
  | none => b
  | some o => b.deallocate o

/-- `OrderBook::get_level_orders`. The walk of the source goes on to a null `next`; a walk that
ends meets no slot twice, so the number of slots bounds it. -/
def getLevelOrders (b : OrderBook) (s : Side) (px : Int) : List Ptr :=
  match b.findLevel s px with
  | none => []
  | some (_, l) => (PriceLevel.walk b.mem b.pool.slots l.head).getD []

/-- `OrderBook::try_replenish_iceberg`; `none` is the result `false`. -/
def tryReplenishIceberg (m : Memory) (l : PriceLevel) (o : Ptr) : Option (Memory × PriceLevel) :=
  if (m o).displayQty = 0 ∨ (m o).hiddenQty = 0 then none
  else
    let (m, l) := l.remove m o
    let slice := min (m o).displayQty (m o).hiddenQty
    let m := m.modify o fun x =>
      { x with hiddenQty := x.hiddenQty - slice, remainingQty := slice }
    some (l.pushBack m o)

/-- `OrderBook::configure_iceberg`. -/
def configureIceberg (b : OrderBook) (id : Nat) (display : Qty) : Bool × OrderBook :=
  match b.findId id with
  | none => (false, b)
  | some o =>
    if display = 0 then (false, b)
    else
      let oldRem := (b.mem o).remainingQty
      let b := b.writeOrder o fun x =>
        { x with displayQty := display
                 hiddenQty := if display < x.qty then x.qty - display else 0
                 remainingQty := min display x.qty }
      let delta := (b.mem o).remainingQty.toInt64 - oldRem.toInt64
      let s := (b.mem o).side
      match b.findLevel s (b.mem o).price with
      | some (i, l) => (true, b.setLevel s i (b.mem o).price (l.adjustAggregate delta))
      | none => (true, b)

/-- `OrderBook::apply_fill`. -/
def applyFill (b : OrderBook) (id : Nat) (qty : Qty) : Qty × OrderBook :=
  match b.findId id with
  | none => (0, b)
  | some o =>
    let filled := min qty (b.mem o).remainingQty
    let b := b.writeOrder o fun x => { x with remainingQty := x.remainingQty - filled }
    let s := (b.mem o).side
    let px := (b.mem o).price
    match b.findLevel s px with
    | none => (filled, b)
    | some (i, l) =>
      let l := l.adjustAggregate (-filled.toInt64)
      if (b.mem o).remainingQty = 0 then
        match tryReplenishIceberg b.mem l o with
        | some (m, l) => (filled, { b with mem := m }.setLevel s i px l)
        | none =>
          let (m, l) := l.remove b.mem o
          let b := { b with mem := m }.setLevel s i px l
          let b := if l.cnt = 0 then b.erasePrice s px else b
          (filled, (b.dropId id).deallocate o)
      else (filled, b.setLevel s i px l)

/-- `OrderBook::add_limit_order`. -/
def addLimitOrder (b : OrderBook) (side : Side) (price : Int) (qty : Qty) :
    Nat × OrderBook :=
  match b.allocate with
  | none => (0, b)
  | some (o, b) =>
    let id := b.nextOrderId
    let b := { b with nextOrderId := id + 1 }
    let b := b.writeOrder o fun x =>
      { x with orderId := id, price, qty, remainingQty := qty, side, type := .limit,
               timestamp := 0 }
    let (v, i, l) := Ladder.findOrEmplace side.cmp price ({} : PriceLevel) (b.ladder side)
    let (m, l) := l.pushBack b.mem o
    let b := ({ b with mem := m }.setLadder side v).setLevel side i price l
    (id, b.putId o)

/-- `OrderBook::cancel_order`. -/
def cancelOrder (b : OrderBook) (id : Nat) : Bool × OrderBook :=
  match b.findId id with
  | none => (false, b)
  | some o =>
    let s := (b.mem o).side
    let px := (b.mem o).price
    let b := match b.findLevel s px with
      | some (i, l) =>
        let (m, l) := l.remove b.mem o
        let b := { b with mem := m }.setLevel s i px l
        if l.cnt = 0 then b.eraseLevel s i else b
      | none => b
    (true, (b.dropId id).deallocate o)

/-- `OrderBook::modify_order`. -/
def modifyOrder (b : OrderBook) (id : Nat) (newPrice : Int) (newQty : Qty) :
    Bool × OrderBook :=
  match b.findId id with
  | none => (false, b)
  | some o =>
    let s := (b.mem o).side
    let oldPrice := (b.mem o).price
    if newPrice = oldPrice then
      match b.findLevel s oldPrice with
      | some (i, l) =>
        let oldTotal := (b.mem o).qty
        let oldRem := (b.mem o).remainingQty
        let deltaTotal := newQty.toInt64 - oldTotal.toInt64
        let newRem := if 0 ≤ deltaTotal then oldRem + deltaTotal.toUInt64 else min oldRem newQty
        let deltaRem := newRem.toInt64 - oldRem.toInt64
        let b := b.writeOrder o fun x => { x with qty := newQty, remainingQty := newRem }
        (true, b.setLevel s i oldPrice (l.adjustAggregate deltaRem))
      | none => (true, b)
    else
      let b := (b.cancelOrder id).2
      (true, (b.addLimitOrder s newPrice newQty).2)

/-- The variables of `market_order`'s loop. -/
structure Sweep where
  book : OrderBook
  toFill : Qty
  fills : List Fill

/-- One iteration of `market_order`'s loop over the ladder of side `s`. -/
def sweepStep (s : Side) (w : Sweep) : Sweep :=
  match w.book.ladder s with
  | [] => w
  | (px, l) :: _ =>
    match l.head with
    | none => { w with book := w.book.eraseLevel s 0 }
    | some cur =>
      let take := min w.toFill (w.book.mem cur).remainingQty
      let b := w.book.writeOrder cur fun x => { x with remainingQty := x.remainingQty - take }
      let l := l.decreaseAggregate take
      let fill : Fill := ⟨(b.mem cur).orderId, (b.mem cur).price, take⟩
      let (b, l) :=
        if (b.mem cur).remainingQty = 0 then
          match tryReplenishIceberg b.mem l cur with
          | some (m, l) => ({ b with mem := m }, l)
          | none =>
            let b := b.dropId (b.mem cur).orderId
            let (m, l) := l.remove b.mem cur
            ({ b with mem := m }.deallocate cur, l)
        else (b, l)
      let b := b.setLevel s 0 px l
      { book := if l.cnt = 0 then b.eraseLevel s 0 else b
        toFill := w.toFill - take
        fills := w.fills ++ [fill] }

/-- The loop runs while quantity is left and the ladder is not empty. -/
def Sweep.active (s : Side) (w : Sweep) : Bool :=
  decide (0 < w.toFill) && !(w.book.ladder s).isEmpty

/-- `market_order`'s loop, bounded by a number of iterations. -/
def sweep (s : Side) : Nat → Sweep → Sweep
  | 0, w => w
  | n + 1, w => if w.active s then sweep s n (sweepStep s w) else w

/-- Enough iterations for the loop to end: every iteration fills some quantity,
removes an order or a level, or shows a hidden slice of an empty order. -/
def sweepBound (b : OrderBook) (s : Side) (qty : Qty) : Nat :=
  qty.toNat + ((b.ladder s).map fun n => 2 * n.2.cnt + 1).sum

/-- `OrderBook::market_order`. -/
def marketOrder (b : OrderBook) (side : Side) (qty : Qty) : List Fill × OrderBook :=
  let s := side.opposite
  let w := sweep s (b.sweepBound s qty) ⟨b, qty, []⟩
  (w.fills, w.book)

/-- `OrderBook::best_bid` and `OrderBook::best_ask`. -/
def best (b : OrderBook) (s : Side) : Option Int := (b.ladder s).head?.map Prod.fst

/-- `OrderBook::best_bid_qty` and `OrderBook::best_ask_qty`. -/
def bestQty (b : OrderBook) (s : Side) : Qty := ((b.ladder s).head?.map fun n => n.2.aggQty).getD 0

def bestBid (b : OrderBook) : Option Int := b.best .buy

def bestAsk (b : OrderBook) : Option Int := b.best .sell

end OrderBook

end Lob
