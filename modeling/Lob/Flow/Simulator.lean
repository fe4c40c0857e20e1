import Lob.Core.Bag
import Lob.Model.Branches
import Lob.Resting.Runs

/-!
# The order-flow simulator

`OrderFlowSimulator` on a book that others may call as well. What a step draws
is an input of it. The two functions that delegate to each other spend fuel, and
`% live_.size()` of an empty `live_` is a fault.
-/

namespace Lob

/-- The fields of `struct SimConfig` that are not used up by the draws. -/
structure SimConfig where
  mid : Int := 10000
  defaultQty : Qty := 1
  targetDepthPerSide : UInt64 := 100
  deriving DecidableEq, Repr

/-- `enum class Kind`. -/
inductive Kind where
  | limit
  | market
  | cancel
  deriving DecidableEq, Repr

/-- What a call of `step` draws. -/
structure Draws where
  /-- What `draw_kind` returns. -/
  kind : Kind
  buy : Bool
  /-- The distance of a limit price from `mid`. -/
  mag : Int
  /-- The word behind the quantity of a market order. -/
  size : UInt64
  /-- The word behind the choice of each attempt to cancel. -/
  pick : Nat → UInt64

/-- A remainder by zero. -/
inductive Fault where
  | modByZero
  deriving DecidableEq, Repr

/-- `class OrderFlowSimulator`, with what it has done. -/
structure OrderFlowSimulator where
  cfg : SimConfig
  book : OrderBook
  live : List Nat := []
  applied : UInt64 := 0
  stepsSinceCompact : UInt64 := 0
  /-- The ids of the orders it has added. -/
  placed : List Nat := []
  /-- Its calls on the book, and whether each has done what it should. -/
  calls : List (Op × Bool) := []

/-- The side of a limit or market order. -/
def Draws.side (d : Draws) : Side := if d.buy then .buy else .sell

/-- `target_depth_per_side * 2 + 64`. -/
def SimConfig.cap (cfg : SimConfig) : UInt64 := cfg.targetDepthPerSide * 2 + 64

namespace OrderFlowSimulator

/-- The constructor. -/
def new (cfg : SimConfig) (book : OrderBook) : OrderFlowSimulator := { cfg, book }

/-- The result of a call and the simulator after it; `none` when the fuel has run out. -/
abbrev Outcome := Option (Except Fault (Bool × OrderFlowSimulator))

def compactLive (s : OrderFlowSimulator) : OrderFlowSimulator :=
  { s with
    live := s.live.filter fun id => (s.book.findId id).isSome
    stepsSinceCompact := 0 }

/-- `do_limit` below the cap. -/
def addLimit (s : OrderFlowSimulator) (d : Draws) : Bool × OrderFlowSimulator :=
  let px := if d.buy then s.cfg.mid - d.mag else s.cfg.mid + d.mag
  let (id, book) := s.book.addLimitOrder d.side px s.cfg.defaultQty
  let call := Op.add d.side px s.cfg.defaultQty
  if id = 0 then (false, { s with book, calls := s.calls ++ [(call, false)] })
  else
    (true, { s with
      book
      live := s.live ++ [id]
      placed := s.placed ++ [id]
      calls := s.calls ++ [(call, true)] })

/-- The loop of `do_cancel`: `left` more attempts, the first of them numbered `attempt`. -/
def cancelAttempts (d : Draws) :
    Nat → Nat → OrderFlowSimulator → Except Fault (Bool × OrderFlowSimulator)
  | 0, _, s => .ok (false, s)
  | left + 1, attempt, s =>
    if s.live.length = 0 then .error .modByZero
    else
      let i := (d.pick attempt).toNat % s.live.length
      let id := s.live.getD i default
      let live := Bag.remove s.live i
      let (ok, book) := s.book.cancelOrder id
      let s := { s with live, book, calls := s.calls ++ [(.cancel id, ok)] }
      if ok then .ok (true, s) else cancelAttempts d left (attempt + 1) s

mutual

def doLimit (d : Draws) : Nat → OrderFlowSimulator → Outcome
  | 0, _ => none
  | n + 1, s =>
    if s.cfg.cap.toNat ≤ s.live.length then doCancel d n s else some (.ok (s.addLimit d))

def doCancel (d : Draws) : Nat → OrderFlowSimulator → Outcome
  | 0, _ => none
  | n + 1, s => if s.live = [] then doLimit d n s else some (cancelAttempts d 8 0 s)

end

def doMarket (d : Draws) (n : Nat) (s : OrderFlowSimulator) : Outcome :=
  let q : Qty := 1 + d.size % 4
  (OrderBook.Branches.marketOrder n s.book d.side q).map fun (_, book) =>
    .ok (true, { s with book, calls := s.calls ++ [(.market d.side q, true)] })

/-- The end of `step`, with what the call for the event has returned. -/
def finish (r : Bool × OrderFlowSimulator) : Bool × OrderFlowSimulator :=
  let s := r.2
  let s := if r.1 then { s with applied := s.applied + 1 } else s
  let s := { s with stepsSinceCompact := s.stepsSinceCompact + 1 }
  (r.1, if 4096 ≤ s.stepsSinceCompact then s.compactLive else s)

def step (n : Nat) (s : OrderFlowSimulator) (d : Draws) : Outcome :=
  let r := match d.kind with
    | .limit => doLimit d n s
    | .market => doMarket d n s
    | .cancel => doCancel d n s
  r.map fun r => r.map finish

end OrderFlowSimulator

end Lob
