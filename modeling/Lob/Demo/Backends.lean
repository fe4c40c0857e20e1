import Mathlib.Data.List.AList
import Lob.Core.Loop
import Lob.Model.Engine

/-!
# The two backends of the demo

The page of the demo is served by the C++ process `lob_demo` or, when that is
missing, by a toy book of dictionaries and unbounded integers. Both answer the
same requests. Latencies are left out.
-/

namespace Lob.Demo

/-- One price level as the page shows it. -/
structure LevelView where
  price : Int
  qty : Int
  n : Nat
  deriving DecidableEq, Repr

/-- A fill as the page shows it. -/
structure FillView where
  id : Nat
  price : Int
  qty : Int
  deriving DecidableEq, Repr

/-- What a backend answers. -/
structure Reply where
  ok : Bool
  id : Nat
  fills : List FillView
  asks : List LevelView
  bids : List LevelView
  deriving DecidableEq, Repr

/-- The reply with the best `depth` levels of each side. -/
def Reply.top (r : Reply) (depth : Nat) : Reply :=
  { r with asks := r.asks.take depth, bids := r.bids.take depth }

/-- What the page asks for. -/
inductive Request where
  | reset
  | seed
  | limit (side : Side) (price qty : Int)
  | market (side : Side) (qty : Int)
  | cancel (id : Nat)
  /-- Any other `op`. -/
  | other
  deriving DecidableEq, Repr

/-- An order of the toy book. -/
structure ToyOrder where
  id : Nat
  qty : Int
  deriving DecidableEq, Repr

/-- `dict[int, list[dict]]`. -/
abbrev Levels := AList fun _ : Int => List ToyOrder

/-- `class ToyBook`. -/
structure ToyBook where
  nextId : Nat := 1
  bids : Levels := ∅
  asks : Levels := ∅

namespace Levels

/-- The keys that `sorted` returns. -/
def sortedKeys (d : Levels) : Side → List Int
  | .buy => d.keys.insertionSort (· ≥ ·)
  | .sell => d.keys.insertionSort (· ≤ ·)

/-- `ToyBook._levels`, best price first. -/
def view (d : Levels) (s : Side) : List LevelView :=
  (d.sortedKeys s).filterMap fun px =>
    match d.lookup px with
    | none => none
    | some os =>
      let qty := (os.map ToyOrder.qty).sum
      if qty = 0 then none else some ⟨px, qty, os.length⟩

/-- `max(opp)` or `min(opp)`. -/
def best (d : Levels) : Side → Option Int
  | .buy => d.keys.max?
  | .sell => d.keys.min?

/-- The number of orders on a side. -/
def count (d : Levels) : Nat := (d.entries.map fun n => n.2.length).sum

/-- `book.setdefault(px, []).append(o)`. -/
def append (d : Levels) (px : Int) (o : ToyOrder) : Levels :=
  d.insert px ((d.lookup px).getD [] ++ [o])

/-- `cancel` on one level of a side. -/
def cancelLevel (cid : Nat) (r : Bool × Levels) (n : Sigma fun _ : Int => List ToyOrder) :
    Bool × Levels :=
  let os := n.2.filter fun o => o.id ≠ cid
  let d := r.2.insert n.1 os
  (r.1 || decide (os.length ≠ n.2.length), if os = [] then d.erase n.1 else d)

/-- `cancel` on a side, and whether an order was found. -/
def cancel (d : Levels) (cid : Nat) : Bool × Levels :=
  d.entries.foldl (cancelLevel cid) (false, d)

end Levels

/-- The variables of the loop of `market`. -/
structure Take where
  opp : Levels
  left : Int
  fills : List FillView

namespace Take

/-- `left > 0 and opp`. -/
def active (w : Take) : Bool := decide (0 < w.left) && !w.opp.keys.isEmpty

/-- One iteration of the loop of `market` against side `s`. No level is empty. -/
def step (s : Side) (w : Take) : Take :=
  match w.opp.best s with
  | none => w
  | some px =>
    match w.opp.lookup px with
    | none | some [] => w
    | some (o :: rest) =>
      let take := min w.left o.qty
      let os := if o.qty - take = 0 then rest else { o with qty := o.qty - take } :: rest
      { opp := if os = [] then w.opp.erase px else w.opp.insert px os
        left := w.left - take
        fills := w.fills ++ [⟨o.id, px, take⟩] }

end Take

namespace ToyBook

def side (t : ToyBook) : Side → Levels
  | .buy => t.bids
  | .sell => t.asks

def setSide (t : ToyBook) : Side → Levels → ToyBook
  | .buy, d => { t with bids := d }
  | .sell, d => { t with asks := d }

/-- `ToyBook.snapshot`. -/
def snapshot (t : ToyBook) (ok : Bool) (id : Nat) (fills : List FillView) : Reply :=
  { ok, id, fills, asks := t.asks.view .sell, bids := t.bids.view .buy }

/-- The branch `limit` of `ToyBook.handle`. -/
def limit (t : ToyBook) (side : Side) (price qty : Int) : ToyBook :=
  { t.setSide side ((t.side side).append price ⟨t.nextId, qty⟩) with nextId := t.nextId + 1 }

/-- The loop of `market`. Every iteration takes some quantity, or removes an order that has
none left. -/
def take (t : ToyBook) (side : Side) (qty : Int) : Take :=
  let opp := t.side side.opposite
  Loop.run Take.active (Take.step side.opposite) (qty.toNat + opp.count + 1) ⟨opp, qty, []⟩

/-- The book that `seed` builds. -/
def seeded : ToyBook :=
  (List.range' 1 8).foldl (fun t (i : Nat) =>
    (t.limit .buy (10000 - i) (5 + i)).limit .sell (10000 + i) (5 + i)) {}

/-- `ToyBook.handle`. -/
def handle (t : ToyBook) : Request → ToyBook × Reply
  | .reset => ({}, snapshot {} true 0 [])
  | .seed => (seeded, seeded.snapshot true (seeded.nextId - 1) [])
  | .limit side price qty =>
    let t' := t.limit side price qty
    (t', t'.snapshot true t.nextId [])
  | .cancel cid =>
    let bids := t.bids.cancel cid
    let asks := t.asks.cancel cid
    let t' := { t with bids := bids.2, asks := asks.2 }
    (t', t'.snapshot (bids.1 || asks.1) cid [])
  | .market side qty =>
    let w := t.take side qty
    let t' := t.setSide side.opposite w.opp
    (t', t'.snapshot true 0 w.fills)
  | .other => (t, t.snapshot false 0 [])

end ToyBook

/-- A command line of `lob_demo`, with the numbers it was read as. -/
inductive Command where
  | limit (side : Side) (price : Int) (qty : Int64)
  | market (side : Side) (qty : Int64)
  | cancel (id : Nat)
  | snap
  deriving DecidableEq, Repr

/-- The number of slots of the book of `lob_demo`. -/
def kOrders : Nat := 8192

/-- The depth of its snapshots. -/
def kDepth : Nat := 12

/-- The process `lob_demo` when it starts. -/
def start : MatchingEngine := .new (.new kOrders)

/-- A fill as `main` prints it. -/
def FillView.ofFill (f : Fill) : FillView := ⟨f.restingOrderId, f.price, f.qty.toNat⟩

/-- The levels of a side that `snapshot` shows. -/
def levels (b : OrderBook) (s : Side) (depth : Nat) : List LevelView :=
  ((b.ladder s).take depth).map fun n => ⟨n.1, n.2.aggQty.toNat, n.2.cnt⟩

/-- The reply that `main` prints. -/
def reply (e : MatchingEngine) (ok : Bool) (id : Nat) (fills : List Fill) : Reply :=
  { ok, id, fills := fills.map FillView.ofFill
    asks := levels e.book .sell kDepth, bids := levels e.book .buy kDepth }

/-- One iteration of the loop of `main`. -/
def execute (e : MatchingEngine) : Command → MatchingEngine × Reply
  | .limit side price qty =>
    let (id, e) := e.submitLimit side price qty.toUInt64
    (e, reply e (decide (id ≠ 0)) id [])
  | .market side qty =>
    let (fills, e) := e.submitMarket side qty.toUInt64
    (e, reply e true 0 fills)
  | .cancel id =>
    let (ok, e) := e.cancelOrder id
    (e, reply e ok id [])
  | .snap => (e, reply e true 0 [])

/-- The lines that `CppBook.handle` writes when it seeds the book. -/
def seedLines : List Command :=
  (List.range' 1 8).flatMap fun i : Nat =>
    [.limit .buy (10000 - i) (.ofInt (5 + i)), .limit .sell (10000 + i) (.ofInt (5 + i))]

/-- `CppBook.handle`. A reset starts a new process; the last reply of a seed is passed on. -/
def handle (e : MatchingEngine) : Request → MatchingEngine × Reply
  | .reset => execute start .snap
  | .seed => seedLines.foldl (fun r cmd => execute r.1 cmd) (execute start .snap)
  | .limit side price qty => execute e (.limit side price (.ofInt qty))
  | .market side qty => execute e (.market side (.ofInt qty))
  | .cancel id => execute e (.cancel id)
  | .other => execute e .snap

end Lob.Demo
