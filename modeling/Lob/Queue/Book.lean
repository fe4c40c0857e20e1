import Lob.Model.Book

/-!
# The book as queues of entries

What the book is for, without slots, links or tables: each side is a ladder of
price levels, and a level is a queue of entries with a cached aggregate. The
operations here say what each call of `OrderBook` does to the queues.
-/

namespace Lob.Queue

/-- What a resting order shows to matching. -/
structure Entry where
  id : Nat
  qty : Qty
  remaining : Qty
  display : Qty
  hidden : Qty
  deriving DecidableEq, Repr

/-- An exhausted entry that has a hidden slice to show. -/
def Entry.Refillable (e : Entry) : Prop := e.display ≠ 0 ∧ e.hidden ≠ 0

instance (e : Entry) : Decidable e.Refillable := inferInstanceAs (Decidable (_ ∧ _))

/-- The entry with its next hidden slice shown. -/
def Entry.refill (e : Entry) : Entry :=
  { e with hidden := e.hidden - min e.display e.hidden, remaining := min e.display e.hidden }

/-- The entry after a fill of `amt`. -/
def Entry.take (e : Entry) (amt : Qty) : Entry := { e with remaining := e.remaining - amt }

/-- One price level: entries in time priority, with the cached total of what they show. -/
structure Level where
  agg : Qty
  queue : List Entry
  deriving DecidableEq, Repr

namespace Level

/-- A new entry stands last. -/
def append (L : Level) (e : Entry) : Level :=
  { agg := L.agg + e.remaining, queue := L.queue ++ [e] }

/-- Take an entry out. -/
def remove (L : Level) (e : Entry) : Level :=
  { agg := L.agg - e.remaining, queue := L.queue.filter fun x => x.id ≠ e.id }

/-- Rewrite an entry where it stands and store a new aggregate. -/
def rewrite (L : Level) (e : Entry) (agg : Qty) : Level :=
  { agg, queue := L.queue.map fun x => if x.id = e.id then e else x }

/-- Fill an entry, the aggregate having become `agg`: an exhausted entry goes to the tail
with its next slice, or leaves. -/
def fill (L : Level) (e : Entry) (amt agg : Qty) : Level :=
  if (e.take amt).remaining = 0 then
    if e.Refillable then ({ L with agg }.remove (e.take amt)).append (e.take amt).refill
    else { L with agg }.remove (e.take amt)
  else L.rewrite (e.take amt) agg

end Level

/-- Append an entry at price `px`, adding the level when it is missing. -/
def enqueue (s : Side) (px : Int) (v : List (Int × Level)) (e : Entry) : List (Int × Level) :=
  let (v, i, L) := Ladder.findOrEmplace s.cmp px (⟨0, []⟩ : Level) v
  v.set i (px, L.append e)

/-- Both ladders and the id counter. -/
structure Book where
  bids : List (Int × Level)
  asks : List (Int × Level)
  nextId : Nat

/-- Where an entry stands. -/
structure Spot where
  side : Side
  index : Nat
  price : Int
  level : Level
  entry : Entry

namespace Book

def ladder (B : Book) : Side → List (Int × Level)
  | .buy => B.bids
  | .sell => B.asks

def setLadder (B : Book) : Side → List (Int × Level) → Book
  | .buy, v => { B with bids := v }
  | .sell, v => { B with asks := v }

/-- Write a level back, dropping it when its queue has run empty. -/
def put (B : Book) (s : Side) (i : Nat) (px : Int) (L : Level) : Book :=
  B.setLadder s (if L.queue = [] then (B.ladder s).eraseIdx i else (B.ladder s).set i (px, L))

def locateIn (B : Book) (s : Side) (id : Nat) : Option Spot :=
  (B.ladder s).zipIdx.findSome? fun n =>
    (n.1.2.queue.find? fun e => e.id = id).map fun e => ⟨s, n.2, n.1.1, n.1.2, e⟩

/-- The place of the entry with a given id. -/
def locate (B : Book) (id : Nat) : Option Spot :=
  (B.locateIn .buy id).or (B.locateIn .sell id)

/-- The entry with id `id` stands at `S`. -/
structure At (B : Book) (id : Nat) (S : Spot) : Prop where
  level : (B.ladder S.side)[S.index]? = some (S.price, S.level)
  mem : S.entry ∈ S.level.queue
  id : S.entry.id = id

/-- Every id stands at one place at most. -/
def Distinct (B : Book) : Prop := ∀ id S S', B.At id S → B.At id S' → S = S'

/-- `add_limit_order` with a slot at hand. -/
def add (B : Book) (s : Side) (px : Int) (qty : Qty) : Book :=
  { B.setLadder s (enqueue s px (B.ladder s) ⟨B.nextId, qty, qty, 0, 0⟩) with
    nextId := B.nextId + 1 }

/-- `cancel_order`. -/
def cancel (B : Book) (id : Nat) : Book :=
  match B.locate id with
  | none => B
  | some S => B.put S.side S.index S.price (S.level.remove S.entry)

/-- The visible quantity after an in-place `modify_order`. -/
def modifiedRemaining (e : Entry) (newQty : Qty) : Qty :=
  if 0 ≤ newQty.toInt64 - e.qty.toInt64 then
    e.remaining + (newQty.toInt64 - e.qty.toInt64).toUInt64
  else min e.remaining newQty

/-- The entry after an in-place `modify_order`. -/
def modified (e : Entry) (newQty : Qty) : Entry :=
  { e with qty := newQty, remaining := modifiedRemaining e newQty }

/-- `modify_order`. -/
def modify (B : Book) (id : Nat) (px : Int) (newQty : Qty) : Book :=
  match B.locate id with
  | none => B
  | some S =>
    if px = S.price then
      let e := modified S.entry newQty
      let delta := e.remaining.toInt64 - S.entry.remaining.toInt64
      B.put S.side S.index S.price (S.level.rewrite e (adjusted S.level.agg delta))
    else (B.cancel id).add S.side px newQty

/-- The entry after `configure_iceberg`. -/
def configured (e : Entry) (display : Qty) : Entry :=
  { e with display, hidden := if display < e.qty then e.qty - display else 0
           remaining := min display e.qty }

/-- `configure_iceberg`. -/
def configure (B : Book) (id : Nat) (display : Qty) : Book :=
  match B.locate id with
  | none => B
  | some S =>
    if display = 0 then B
    else
      let e := configured S.entry display
      let delta := e.remaining.toInt64 - S.entry.remaining.toInt64
      B.put S.side S.index S.price (S.level.rewrite e (adjusted S.level.agg delta))

/-- `apply_fill`, with the quantity it returns. -/
def applyFill (B : Book) (id : Nat) (qty : Qty) : Qty × Book :=
  match B.locate id with
  | none => (0, B)
  | some S =>
    let filled := min qty S.entry.remaining
    let agg := adjusted S.level.agg (-filled.toInt64)
    (filled, B.put S.side S.index S.price (S.level.fill S.entry filled agg))

end Book

/-- The variables of `market_order`'s loop. -/
structure Sweep where
  book : Book
  toFill : Qty
  fills : List Fill

/-- One iteration of `market_order`'s loop. -/
def sweepStep (s : Side) (w : Sweep) : Sweep :=
  match w.book.ladder s with
  | [] => w
  | (px, L) :: _ =>
    match L.queue with
    | [] => { w with book := w.book.put s 0 px L }
    | e :: _ =>
      let take := min w.toFill e.remaining
      { book := w.book.put s 0 px (L.fill e take (decreased L.agg take))
        toFill := w.toFill - take
        fills := w.fills ++ [⟨e.id, px, take⟩] }

def Sweep.active (s : Side) (w : Sweep) : Bool :=
  decide (0 < w.toFill) && !(w.book.ladder s).isEmpty

/-- `market_order`'s loop. -/
def sweep (s : Side) : Nat → Sweep → Sweep
  | 0, w => w
  | n + 1, w => if w.active s then sweep s n (sweepStep s w) else w

end Lob.Queue
