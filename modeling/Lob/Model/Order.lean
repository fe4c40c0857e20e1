import Mathlib.Data.List.Basic
import Mathlib.Data.UInt

/-!
# Orders, order memory and price levels

An order lives in a slot of the pool's buffer and is named by its slot; the
intrusive `prev` and `next` fields and the ends of a price level name slots too.
Quantities are machine words with their wrap-around arithmetic. Prices are only
compared by the modelled code, so they are integers; order ids count up from `1`.
-/

namespace Lob

/-- A slot of the order buffer, standing for an `Order*`. -/
abbrev Ptr := Nat

/-- `qty_t`. -/
abbrev Qty := UInt64

inductive Side where
  | buy
  | sell
  deriving DecidableEq, Repr

/-- The side an incoming order trades against. -/
def Side.opposite : Side → Side
  | .buy => .sell
  | .sell => .buy

inductive OrderType where
  | limit
  | market
  | ioc
  | fok
  deriving DecidableEq, Repr

inductive StopType where
  | none
  | stopMarket
  | stopLimit
  deriving DecidableEq, Repr

/-- `struct Order`. The default value is the zeroed slot `allocate` hands out. -/
structure Order where
  orderId : Nat := 0
  /-- Total quantity, visible and hidden. -/
  qty : Qty := 0
  timestamp : UInt64 := 0
  prev : Option Ptr := none
  price : Int := 0
  /-- Visible remaining quantity. -/
  remainingQty : Qty := 0
  next : Option Ptr := none
  /-- Configured display slice, `0` for an order that is no iceberg. -/
  displayQty : Qty := 0
  hiddenQty : Qty := 0
  side : Side := .buy
  type : OrderType := .limit
  stopType : StopType := .none
  stopPrice : Int := 0
  deriving DecidableEq, Repr

/-- The contents of every slot. -/
abbrev Memory := Ptr → Order

/-- Rewrite the order in slot `o`. -/
def Memory.modify (m : Memory) (o : Ptr) (f : Order → Order) : Memory :=
  fun q => if q = o then f (m q) else m q

/-- `struct Fill`. -/
structure Fill where
  restingOrderId : Nat
  price : Int
  qty : Qty
  deriving DecidableEq, Repr

/-- `class PriceLevel`: the two ends of an intrusive list with cached aggregate and count. -/
structure PriceLevel where
  head : Option Ptr := none
  tail : Option Ptr := none
  aggQty : Qty := 0
  cnt : Nat := 0
  deriving DecidableEq, Repr

/-- The aggregate after `decrease_aggregate`, which stops at zero. -/
def decreased (agg amt : Qty) : Qty := if agg < amt then 0 else agg - amt

/-- The aggregate after `adjust_aggregate`, which stops at zero on the way down. -/
def adjusted (agg : Qty) (delta : Int64) : Qty :=
  if 0 ≤ delta then agg + delta.toUInt64 else decreased agg (-delta).toUInt64

namespace PriceLevel

/-- `PriceLevel::push_back`. -/
def pushBack (m : Memory) (l : PriceLevel) (o : Ptr) : Memory × PriceLevel :=
  let m := m.modify o fun x => { x with next := none, prev := l.tail }
  let m := match l.tail with
    | some t => m.modify t fun x => { x with next := some o }
    | none => m
  (m, { head := l.head.or (some o), tail := some o,
        aggQty := l.aggQty + (m o).remainingQty, cnt := l.cnt + 1 })

/-- `PriceLevel::remove`. -/
def remove (m : Memory) (l : PriceLevel) (o : Ptr) : Memory × PriceLevel :=
  let (m, l) := match (m o).prev with
    | some p => (m.modify p fun x => { x with next := (m o).next }, l)
    | none => (m, { l with head := (m o).next })
  let (m, l) := match (m o).next with
    | some n => (m.modify n fun x => { x with prev := (m o).prev }, l)
    | none => (m, { l with tail := (m o).prev })
  (m.modify o fun x => { x with next := none, prev := none },
    { l with aggQty := l.aggQty - (m o).remainingQty, cnt := l.cnt - 1 })

/-- `PriceLevel::decrease_aggregate`. -/
def decreaseAggregate (l : PriceLevel) (amt : Qty) : PriceLevel :=
  { l with aggQty := decreased l.aggQty amt }

/-- `PriceLevel::adjust_aggregate`. -/
def adjustAggregate (l : PriceLevel) (delta : Int64) : PriceLevel :=
  { l with aggQty := adjusted l.aggQty delta }

/-- The orders from slot `cur` on, following `next`; `none` when the null pointer has not been
met within that many orders. -/
def walk (m : Memory) : Nat → Option Ptr → Option (List Ptr)
  | _, none => some []
  | 0, some _ => none
  | n + 1, some o => (walk m n (m o).next).map (o :: ·)

end PriceLevel

end Lob
