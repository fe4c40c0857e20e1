import Lob.Mirror.Names

/-!
# The mirrored book

Negating every price and exchanging the sides turns bids into asks. Every call
of `OrderBook` with mirrored arguments does to the mirrored book what the call
does to the book, and returns the same ids, flags and quantities, with negated
prices in its fills.
-/

namespace Lob

/-- The comparator of the other side, on negated prices. -/
theorem Side.cmp_opposite (s : Side) (a b : Int) : s.opposite.cmp (-a) (-b) = s.cmp a b := by
  cases s <;> simp only [opposite, cmp, decide_eq_decide] <;> omega

/-- Different prices have different negations. -/
theorem neg_price_injective : Function.Injective fun px : Int => -px :=
  fun _ _ h => Int.neg_inj.mp h

/-- The mirrored order. A slot that was never written has no side to change. -/
def Order.mirror (x : Order) : Order :=
  { x with
    side := if x.orderId = 0 then x.side else x.side.opposite
    price := -x.price
    stopPrice := -x.stopPrice }

/-- Mirror every slot. -/
def Memory.mirror (m : Memory) : Memory := fun p => (m p).mirror

/-- The levels with negated prices. -/
def PriceLadder.mirror (v : PriceLadder) : PriceLadder := Ladder.mapKeys (fun px => -px) v

/-- The mirrored fill. -/
def Fill.mirror (f : Fill) : Fill := { f with price := -f.price }

/-- The book with its sides exchanged and its prices negated. -/
def OrderBook.mirror (b : OrderBook) : OrderBook :=
  { b with
    mem := Memory.mirror b.mem
    bids := PriceLadder.mirror b.asks
    asks := PriceLadder.mirror b.bids }

variable {x : Order} {m m' : Memory} {b b' : OrderBook} {s side : Side} {i id : Nat}
  {px price newPrice limitPrice stopPrice : Int} {o p : Ptr} {l l' : PriceLevel}
  {v : PriceLadder} {qty newQty display : Qty}

/-- A named order changes its side. -/
theorem Order.side_mirror (h : x.orderId ≠ 0) : x.mirror.side = x.side.opposite := if_neg h

/-- An order that was written has its side exchanged. -/
theorem Order.mirror_of_named (h : x.orderId ≠ 0) : x.mirror =
    { x with side := x.side.opposite, price := -x.price, stopPrice := -x.stopPrice } := by
  unfold mirror
  rw [if_neg h]

/-- A write to the mirrored slots, when it is mirrored at the slot it writes. -/
theorem Memory.mirror_modify {f g : Order → Order} (h : (f (m o)).mirror = g (m o).mirror) :
    Memory.mirror (m.modify o f) = (Memory.mirror m).modify o g := by
  funext p
  unfold mirror modify
  by_cases hp : p = o
  · rw [if_pos hp, if_pos hp, hp, h]
  · rw [if_neg hp, if_neg hp]

/-- Mirroring keeps the links back. -/
@[simp]
theorem Memory.prev_mirror : (Memory.mirror m p).prev = (m p).prev := rfl

/-- Mirroring keeps the links on. -/
@[simp]
theorem Memory.next_mirror : (Memory.mirror m p).next = (m p).next := rfl

/-- Mirroring keeps the ids. -/
@[simp]
theorem Memory.orderId_mirror : (Memory.mirror m p).orderId = (m p).orderId := rfl

/-- Mirroring keeps the sizes. -/
@[simp]
theorem Memory.qty_mirror : (Memory.mirror m p).qty = (m p).qty := rfl

/-- Mirroring keeps what remains visible. -/
@[simp]
theorem Memory.remainingQty_mirror :
    (Memory.mirror m p).remainingQty = (m p).remainingQty := rfl

/-- Mirroring negates the prices. -/
@[simp]
theorem Memory.price_mirror : (Memory.mirror m p).price = -(m p).price := rfl

/-- A write that mirroring does not see. -/
theorem Memory.modify_mirror {f : Order → Order} (h : ∀ x, (f x).mirror = f x.mirror) :
    (Memory.mirror m).modify o f = Memory.mirror (m.modify o f) :=
  (Memory.mirror_modify (h (m o))).symm

namespace PriceLevel

/-- Appending writes links only. -/
theorem pushBack_mirror : l.pushBack (Memory.mirror m) o =
    (Memory.mirror (l.pushBack m o).1, (l.pushBack m o).2) := by
  have hlast (q : Option Ptr) : (Memory.mirror m).modify o (fun x =>
      { x with next := none, prev := q }) = Memory.mirror (m.modify o fun x =>
      { x with next := none, prev := q }) := Memory.modify_mirror fun _ => rfl
  have hlink (m : Memory) (t : Ptr) : (Memory.mirror m).modify t (fun x =>
      { x with next := some o }) = Memory.mirror (m.modify t fun x =>
      { x with next := some o }) := Memory.modify_mirror fun _ => rfl
  unfold pushBack
  cases l.tail with
  | none => simp only [hlast, Memory.remainingQty_mirror]
  | some t => simp only [hlast, hlink, Memory.remainingQty_mirror]

/-- Unlinking writes links only, whatever the neighbours. -/
theorem remove_mirror : l.remove (Memory.mirror m) o =
    (Memory.mirror (l.remove m o).1, (l.remove m o).2) := by
  have hnext (m : Memory) (p : Ptr) (n : Option Ptr) : (Memory.mirror m).modify p (fun x =>
      { x with next := n }) = Memory.mirror (m.modify p fun x => { x with next := n }) :=
    Memory.modify_mirror fun _ => rfl
  have hprev (m : Memory) (p : Ptr) (q : Option Ptr) : (Memory.mirror m).modify p (fun x =>
      { x with prev := q }) = Memory.mirror (m.modify p fun x => { x with prev := q }) :=
    Memory.modify_mirror fun _ => rfl
  have hout (m : Memory) : (Memory.mirror m).modify o (fun x =>
      { x with next := none, prev := none }) = Memory.mirror (m.modify o fun x =>
      { x with next := none, prev := none }) := Memory.modify_mirror fun _ => rfl
  cases hp : (m o).prev with
  | none =>
    cases hn : (m o).next with
    | none => simp only [remove, Memory.prev_mirror, Memory.next_mirror,
        Memory.remainingQty_mirror, hp, hn, hout]
    | some n => simp only [remove, Memory.prev_mirror, Memory.next_mirror,
        Memory.remainingQty_mirror, hp, hn, hprev, hout]
  | some q =>
    simp only [remove, Memory.prev_mirror, Memory.next_mirror, hp, hnext]
    cases hn : (m.modify q (fun x => { x with next := (m o).next }) o).next with
    | none => simp only [Memory.remainingQty_mirror, hout]
    | some n => simp only [Memory.remainingQty_mirror, hprev, hout]

/-- A walk reads links only. -/
theorem walk_mirror (n : Nat) (cur : Option Ptr) :
    walk (Memory.mirror m) n cur = walk m n cur := by
  induction n generalizing cur with
  | zero => cases cur <;> rfl
  | succ n ih =>
    cases cur with
    | none => rfl
    | some o => exact congrArg (Option.map (o :: ·)) (ih (m o).next)

end PriceLevel

namespace OrderBook

/-- What mirroring leaves alone. -/
@[simp]
theorem findId_mirror : b.mirror.findId id = b.findId id := rfl

/-- The slots of the mirrored book. -/
@[simp]
theorem mem_mirror : b.mirror.mem = Memory.mirror b.mem := rfl

/-- The ladder of one side is the mirrored one of the other. -/
theorem ladder_mirror : b.mirror.ladder s.opposite = PriceLadder.mirror (b.ladder s) := by
  cases s <;> rfl

/-- Writing a ladder is writing the mirrored one on the other side. -/
theorem setLadder_mirror : (b.setLadder s v).mirror =
    b.mirror.setLadder s.opposite (PriceLadder.mirror v) := by
  cases s <;> rfl

/-- A price is found on the other side, at the same place and with the same level. -/
theorem findLevel_mirror : b.mirror.findLevel s.opposite (-px) = b.findLevel s px := by
  unfold findLevel
  rw [ladder_mirror]
  exact Ladder.find_mapKeys (fun a b => s.cmp_opposite a b) neg_price_injective px _

/-- Writing a level is writing it on the other side at the negated price. -/
theorem setLevel_mirror : (b.setLevel s i px l).mirror =
    b.mirror.setLevel s.opposite i (-px) l := by
  unfold setLevel
  rw [setLadder_mirror, ladder_mirror, PriceLadder.mirror, Ladder.mapKeys_set]
  rfl

/-- A level is erased at the same place of the other side. -/
theorem eraseLevel_mirror : (b.eraseLevel s i).mirror = b.mirror.eraseLevel s.opposite i := by
  unfold eraseLevel
  rw [setLadder_mirror, ladder_mirror, PriceLadder.mirror, Ladder.mapKeys_eraseIdx]
  rfl

/-- A price is erased on the other side as its negation. -/
theorem erasePrice_mirror : (b.erasePrice s px).mirror =
    b.mirror.erasePrice s.opposite (-px) := by
  unfold erasePrice
  rw [setLadder_mirror, ladder_mirror, PriceLadder.mirror,
    ← Ladder.eraseKey_mapKeys (fun a b => s.cmp_opposite a b) neg_price_injective]
  rfl

/-- A write to an order that mirroring does not see. -/
theorem writeOrder_mirror {f : Order → Order} (h : ∀ x, (f x).mirror = f x.mirror) :
    b.mirror.writeOrder o f = (b.writeOrder o f).mirror :=
  congrArg (fun m => ({ b.mirror with mem := m } : OrderBook)) (Memory.modify_mirror h)

/-- The id table knows no side and no price. -/
theorem dropId_mirror : (b.dropId id).mirror = b.mirror.dropId id := by
  have hlen : b.mirror.idSlots = b.idSlots := rfl
  unfold dropId
  rw [hlen]
  split
  · rfl
  · rfl

/-- The pool knows slots only. -/
theorem deallocate_mirror : (b.deallocate o).mirror = b.mirror.deallocate o := rfl

/-- The next slice is shown alike. -/
theorem tryReplenish_mirror : tryReplenishIceberg (Memory.mirror m) l o =
    (tryReplenishIceberg m l o).map fun r => (Memory.mirror r.1, r.2) := by
  have hrefill (x : Order) : x.refill.mirror = x.mirror.refill := rfl
  have hentry : (Memory.mirror m o).entry = (m o).entry := rfl
  rw [tryReplenishIceberg_eq, tryReplenishIceberg_eq, hentry, PriceLevel.remove_mirror]
  split
  · dsimp only
    rw [Memory.modify_mirror hrefill, PriceLevel.pushBack_mirror]
    rfl
  · rfl

end OrderBook

end Lob
