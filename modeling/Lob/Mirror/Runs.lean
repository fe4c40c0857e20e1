import Lob.Mirror.Engine
import Lob.Representation.Matching
import Lob.Resting.Runs

/-!
# Runs and their mirror images

A run of calls on an empty engine and the run of the mirrored calls stay mirror
images of each other, with the same ids, flags and quantities returned at every
call. The calls on the book are the two written out copies of each branch.
-/

namespace Lob

/-- A call on the book or on the engine. -/
inductive Request where
  | book (op : Op)
  | limit (side : Side) (price : Int) (qty display : Qty)
  | market (side : Side) (qty : Qty)
  | stop (side : Side) (stopPrice : Int) (qty : Qty) (stopType : StopType) (limitPrice : Int)
      (display : Qty)
  deriving DecidableEq, Repr

/-- What a call returns. -/
inductive Reply where
  | orderId (id : Nat)
  | flag (ok : Bool)
  | filled (qty : Qty)
  | fills (fills : List Fill)
  deriving DecidableEq, Repr

/-- Negate the prices and exchange the sides of a call on the book. -/
def Op.mirror : Op → Op
  | .add side price qty => .add side.opposite (-price) qty
  | .cancel id => .cancel id
  | .modify id newPrice newQty => .modify id (-newPrice) newQty
  | .market side qty => .market side.opposite qty
  | .fill id qty => .fill id qty
  | .configure id display => .configure id display

/-- Negate the prices and exchange the sides of a call. -/
def Request.mirror : Request → Request
  | .book op => .book op.mirror
  | .limit side price qty display => .limit side.opposite (-price) qty display
  | .market side qty => .market side.opposite qty
  | .stop side stopPrice qty stopType limitPrice display =>
    .stop side.opposite (-stopPrice) qty stopType (-limitPrice) display

/-- Negate the prices of the fills. -/
def Reply.mirror : Reply → Reply
  | .orderId id => .orderId id
  | .flag ok => .flag ok
  | .filled qty => .filled qty
  | .fills fs => .fills (fs.map Fill.mirror)

namespace OrderBook

/-- A call on the book, when its loop ends within `n` iterations. -/
def serve (n : Nat) (b : OrderBook) : Op → Option (Reply × OrderBook)
  | .add side price qty =>
    let (id, b) := Branches.addLimitOrder b side price qty
    some (.orderId id, b)
  | .cancel id =>
    let (ok, b) := Branches.cancelOrder b id
    some (.flag ok, b)
  | .modify id newPrice newQty =>
    let (ok, b) := Branches.modifyOrder b id newPrice newQty
    some (.flag ok, b)
  | .market side qty => (Branches.marketOrder n b side qty).map fun r => (.fills r.1, r.2)
  | .fill id qty =>
    let (filled, b) := Branches.applyFill b id qty
    some (.filled filled, b)
  | .configure id display =>
    let (ok, b) := Branches.configureIceberg b id display
    some (.flag ok, b)

variable {b : OrderBook} {n : Nat}

/-- One call of the book. -/
theorem serve_mirror (h : b.Closed) (op : Op) : b.mirror.serve n op.mirror =
    (b.serve n op).map fun r => (r.1.mirror, r.2.mirror) := by
  cases op with
  | add side price qty =>
    simp only [serve, Op.mirror, Branches.addLimitOrder_eq, addLimitOrder_mirror h]
    rfl
  | cancel id =>
    simp only [serve, Op.mirror, Branches.cancelOrder_eq, cancelOrder_mirror h]
    rfl
  | modify id newPrice newQty =>
    simp only [serve, Op.mirror, Branches.modifyOrder_eq, modifyOrder_mirror h]
    rfl
  | market side qty =>
    simp only [serve, Op.mirror, marketOrder_mirror, Option.map_map]
    rfl
  | fill id qty =>
    simp only [serve, Op.mirror, Branches.applyFill_eq, applyFill_mirror h]
    rfl
  | configure id display =>
    simp only [serve, Op.mirror, Branches.configureIceberg_eq, configureIceberg_mirror h]
    rfl

/-- Every call of the book keeps the slots named. -/
theorem keepsNamed_serve (h : b.Closed) (op : Op) {r : Reply × OrderBook}
    (hr : b.serve n op = some r) : KeepsNamed b r.2 := by
  cases op with
  | add side price qty =>
    simp only [serve, Branches.addLimitOrder_eq] at hr
    rw [← Option.some.inj hr]
    exact keepsNamed_addLimitOrder h.next
  | cancel id =>
    simp only [serve, Branches.cancelOrder_eq] at hr
    rw [← Option.some.inj hr]
    exact keepsNamed_cancelOrder
  | modify id newPrice newQty =>
    simp only [serve, Branches.modifyOrder_eq] at hr
    rw [← Option.some.inj hr]
    exact keepsNamed_modifyOrder h.next
  | market side qty =>
    obtain ⟨r', hm, hr⟩ := Option.map_eq_some_iff.mp hr
    rw [← hr]
    exact keepsNamed_marketOrder hm
  | fill id qty =>
    simp only [serve, Branches.applyFill_eq] at hr
    rw [← Option.some.inj hr]
    exact keepsNamed_applyFill
  | configure id display =>
    simp only [serve, Branches.configureIceberg_eq] at hr
    rw [← Option.some.inj hr]
    exact keepsNamed_configureIceberg

end OrderBook

namespace MatchingEngine

/-- A call on the engine or its book, when its loops end within `n` iterations. -/
def serve (n : Nat) (e : MatchingEngine) : Request → Option (Reply × MatchingEngine)
  | .book op => (e.book.serve n op).map fun r => (r.1, { e with book := r.2 })
  | .limit side price qty display =>
    let (id, e) := e.submitLimit side price qty display
    some (.orderId id, e)
  | .market side qty => (Branches.submitMarket n e side qty).map fun r => (.fills r.1, r.2)
  | .stop side stopPrice qty stopType limitPrice display =>
    let (id, e) := e.submitStop side stopPrice qty stopType limitPrice display
    some (.orderId id, e)

/-- The replies to a sequence of calls and the engine after it. -/
def serveAll (n : Nat) (e : MatchingEngine) : List Request → Option (List Reply × MatchingEngine)
  | [] => some ([], e)
  | q :: rest =>
    match e.serve n q with
    | none => none
    | some (r, e) => (e.serveAll n rest).map fun s => (r :: s.1, s.2)

variable {e : MatchingEngine} {n : Nat}

theorem serve_mirror (h : e.Closed) (q : Request) : e.mirror.serve n q.mirror =
    (e.serve n q).map fun r => (r.1.mirror, r.2.mirror) := by
  cases q with
  | book op =>
    have hbook : e.mirror.book = e.book.mirror := rfl
    simp only [serve, Request.mirror, hbook, OrderBook.serve_mirror h.book, Option.map_map]
    rfl
  | limit side price qty display =>
    simp only [serve, Request.mirror, submitLimit_mirror h]
    rfl
  | market side qty =>
    simp only [serve, Request.mirror, (submitMarket_mirror n h side qty).1, Option.map_map]
    rfl
  | stop side stopPrice qty stopType limitPrice display =>
    simp only [serve, Request.mirror, submitStop_mirror h]
    rfl

/-- Every call of the engine leads on. -/
theorem leads_serve (h : e.Closed) (q : Request) {r : Reply × MatchingEngine}
    (hr : e.serve n q = some r) : Leads e r.2 := by
  cases q with
  | book op =>
    obtain ⟨r', hb, hr⟩ := Option.map_eq_some_iff.mp hr
    rw [← hr]
    exact h.leads (OrderBook.keepsNamed_serve h.book op hb)
  | limit side price qty display =>
    rw [← Option.some.inj hr]
    exact leads_submitLimit h
  | market side qty =>
    obtain ⟨r', hm, hr⟩ := Option.map_eq_some_iff.mp hr
    rw [← hr]
    exact (submitMarket_mirror n h side qty).2 r' hm
  | stop side stopPrice qty stopType limitPrice display =>
    rw [← Option.some.inj hr]
    exact leads_submitStop h

/-- A list of calls, served one by one. -/
theorem serveAll_mirror (h : e.Closed) (qs : List Request) :
    e.mirror.serveAll n (qs.map Request.mirror) =
      (e.serveAll n qs).map fun r => (r.1.map Reply.mirror, r.2.mirror) := by
  induction qs generalizing e with
  | nil => rfl
  | cons q qs ih =>
    rw [List.map_cons, serveAll, serveAll, serve_mirror h]
    cases hr : e.serve n q with
    | none => rfl
    | some r =>
      obtain ⟨a, e'⟩ := r
      dsimp only [Option.map_some]
      rw [ih (leads_serve h q hr).closed, Option.map_map, Option.map_map]
      rfl

/-- A new engine points nowhere. -/
theorem closed_new (capacity : Nat) (mode : AllocMode) (policy : MatchingPolicy) :
    (new (OrderBook.new capacity mode) policy).Closed :=
  ⟨OrderBook.closed_new capacity mode, fun o ho => by contradiction⟩

/-- Mirrored calls on an empty engine return the mirrored replies and reach the mirrored
state, however many iterations the loops take. -/
theorem run_mirrored (capacity n : Nat) (mode : AllocMode) (policy : MatchingPolicy)
    (qs : List Request) :
    (new (OrderBook.new capacity mode) policy).serveAll n (qs.map Request.mirror) =
      ((new (OrderBook.new capacity mode) policy).serveAll n qs).map
        fun r => (r.1.map Reply.mirror, r.2.mirror) :=
  serveAll_mirror (closed_new capacity mode policy) qs

end MatchingEngine

end Lob
