import Lob.Model.Engine

/-!
# The two copies of each branch

`order_book.cpp` writes the branch of each side out, with the bids and
`BidCmp` in one copy and the asks and `std::less` in the other. The definitions
here follow that text. Each is the definition that takes the side, so the two
copies agree.
-/

namespace Lob

namespace OrderBook.Branches

/-- `OrderBook::get_level_orders`, when its loop ends within `n` iterations. -/
def getLevelOrders (n : Nat) (b : OrderBook) (side : Side) (price : Int) : Option (List Ptr) :=
  match side with
  | .buy =>
    match Ladder.find (fun a b => decide (b < a)) price b.bids with
    | none => some []
    | some (_, l) => PriceLevel.walk b.mem n l.head
  | .sell =>
    match Ladder.find (fun a b => decide (a < b)) price b.asks with
    | none => some []
    | some (_, l) => PriceLevel.walk b.mem n l.head

/-- `OrderBook::configure_iceberg`. -/
def configureIceberg (b : OrderBook) (id : Nat) (display : Qty) : Bool × OrderBook :=
  match b.findId id with
  | none => (false, b)
  | some o =>
    if display = 0 then (false, b)
    else
      let oldRem := (b.mem o).remainingQty
      let b := b.writeOrder o fun x =>
        { x with displayQty := display
                 hiddenQty := if display < x.qty then x.qty - display else 0
                 remainingQty := min display x.qty }
      let px := (b.mem o).price
      let delta := (b.mem o).remainingQty.toInt64 - oldRem.toInt64
      match (b.mem o).side with
      | .buy =>
        match Ladder.find (fun a b => decide (b < a)) px b.bids with
        | some (i, l) => (true, { b with bids := b.bids.set i (px, l.adjustAggregate delta) })
        | none => (true, b)
      | .sell =>
        match Ladder.find (fun a b => decide (a < b)) px b.asks with
        | some (i, l) => (true, { b with asks := b.asks.set i (px, l.adjustAggregate delta) })
        | none => (true, b)

/-- `OrderBook::apply_fill`. -/
def applyFill (b : OrderBook) (id : Nat) (qty : Qty) : Qty × OrderBook :=
  match b.findId id with
  | none => (0, b)
  | some o =>
    let filled := min qty (b.mem o).remainingQty
    let b := b.writeOrder o fun x => { x with remainingQty := x.remainingQty - filled }
    let px := (b.mem o).price
    match (b.mem o).side with
    | .buy =>
      match Ladder.find (fun a b => decide (b < a)) px b.bids with
      | none => (filled, b)
      | some (i, l) =>
        let l := l.adjustAggregate (-filled.toInt64)
        if (b.mem o).remainingQty = 0 then
          match tryReplenishIceberg b.mem l o with
          | some (m, l) => (filled, { b with mem := m, bids := b.bids.set i (px, l) })
          | none =>
            let (m, l) := l.remove b.mem o
            let b := { b with mem := m, bids := b.bids.set i (px, l) }
            let b := if l.cnt = 0 then
                { b with bids := Ladder.eraseKey (fun a b => decide (b < a)) px b.bids }
              else b
            (filled, (b.dropId id).deallocate o)
        else (filled, { b with bids := b.bids.set i (px, l) })
    | .sell =>
      match Ladder.find (fun a b => decide (a < b)) px b.asks with
      | none => (filled, b)
      | some (i, l) =>
        let l := l.adjustAggregate (-filled.toInt64)
        if (b.mem o).remainingQty = 0 then
          match tryReplenishIceberg b.mem l o with
          | some (m, l) => (filled, { b with mem := m, asks := b.asks.set i (px, l) })
          | none =>
            let (m, l) := l.remove b.mem o
            let b := { b with mem := m, asks := b.asks.set i (px, l) }
            let b := if l.cnt = 0 then
                { b with asks := Ladder.eraseKey (fun a b => decide (a < b)) px b.asks }
              else b
            (filled, (b.dropId id).deallocate o)
        else (filled, { b with asks := b.asks.set i (px, l) })

/-- `OrderBook::add_limit_order`. -/
def addLimitOrder (b : OrderBook) (side : Side) (price : Int) (qty : Qty) : Nat × OrderBook :=
  match b.allocate with
  | none => (0, b)
  | some (o, b) =>
    let id := b.nextOrderId
    let b := { b with nextOrderId := id + 1 }
    let b := b.writeOrder o fun x =>
      { x with orderId := id, price, qty, remainingQty := qty, side, type := .limit,
               timestamp := 0 }
    match side with
    | .buy =>
      let (v, i, l) :=
        Ladder.findOrEmplace (fun a b => decide (b < a)) price ({} : PriceLevel) b.bids
      let (m, l) := l.pushBack b.mem o
      (id, { b with mem := m, bids := v.set i (price, l) }.putId o)
    | .sell =>
      let (v, i, l) :=
        Ladder.findOrEmplace (fun a b => decide (a < b)) price ({} : PriceLevel) b.asks
      let (m, l) := l.pushBack b.mem o
      (id, { b with mem := m, asks := v.set i (price, l) }.putId o)

/-- `OrderBook::cancel_order`. -/
def cancelOrder (b : OrderBook) (id : Nat) : Bool × OrderBook :=
  match b.findId id with
  | none => (false, b)
  | some o =>
    let px := (b.mem o).price
    match (b.mem o).side with
    | .buy =>
      match Ladder.find (fun a b => decide (b < a)) px b.bids with
      | some (i, l) =>
        let (m, l) := l.remove b.mem o
        let b := { b with mem := m, bids := b.bids.set i (px, l) }
        let b := if l.cnt = 0 then { b with bids := b.bids.eraseIdx i } else b
        (true, (b.dropId id).deallocate o)
      | none => (true, (b.dropId id).deallocate o)
    | .sell =>
      match Ladder.find (fun a b => decide (a < b)) px b.asks with
      | some (i, l) =>
        let (m, l) := l.remove b.mem o
        let b := { b with mem := m, asks := b.asks.set i (px, l) }
        let b := if l.cnt = 0 then { b with asks := b.asks.eraseIdx i } else b
        (true, (b.dropId id).deallocate o)
      | none => (true, (b.dropId id).deallocate o)

/-- `OrderBook::modify_order`. -/
def modifyOrder (b : OrderBook) (id : Nat) (newPrice : Int) (newQty : Qty) :
    Bool × OrderBook :=
  match b.findId id with
  | none => (false, b)
  | some o =>
    let oldPrice := (b.mem o).price
    if newPrice = oldPrice then
      match (b.mem o).side with
      | .buy =>
        match Ladder.find (fun a b => decide (b < a)) oldPrice b.bids with
        | some (i, l) =>
          let oldTotal := (b.mem o).qty
          let oldRem := (b.mem o).remainingQty
          let deltaTotal := newQty.toInt64 - oldTotal.toInt64
          let newRem :=
            if 0 ≤ deltaTotal then oldRem + deltaTotal.toUInt64 else min oldRem newQty
          let deltaRem := newRem.toInt64 - oldRem.toInt64
          let b := b.writeOrder o fun x => { x with qty := newQty, remainingQty := newRem }
          (true, { b with bids := b.bids.set i (oldPrice, l.adjustAggregate deltaRem) })
        | none => (true, b)
      | .sell =>
        match Ladder.find (fun a b => decide (a < b)) oldPrice b.asks with
        | some (i, l) =>
          let oldTotal := (b.mem o).qty
          let oldRem := (b.mem o).remainingQty
          let deltaTotal := newQty.toInt64 - oldTotal.toInt64
          let newRem :=
            if 0 ≤ deltaTotal then oldRem + deltaTotal.toUInt64 else min oldRem newQty
          let deltaRem := newRem.toInt64 - oldRem.toInt64
          let b := b.writeOrder o fun x => { x with qty := newQty, remainingQty := newRem }
          (true, { b with asks := b.asks.set i (oldPrice, l.adjustAggregate deltaRem) })
        | none => (true, b)
    else
      let side := (b.mem o).side
      let b := (cancelOrder b id).2
      (true, (addLimitOrder b side newPrice newQty).2)

/-- One iteration of `market_order`'s loop over the asks. -/
def sweepAsksStep (w : Sweep) : Sweep :=
  match w.book.asks with
  | [] => w
  | (px, l) :: _ =>
    match l.head with
    | none => { w with book := { w.book with asks := w.book.asks.eraseIdx 0 } }
    | some cur =>
      let take := min w.toFill (w.book.mem cur).remainingQty
      let b := w.book.writeOrder cur fun x => { x with remainingQty := x.remainingQty - take }
      let l := l.decreaseAggregate take
      let fill : Fill := ⟨(b.mem cur).orderId, (b.mem cur).price, take⟩
      let (b, l) :=
        if (b.mem cur).remainingQty = 0 then
          match tryReplenishIceberg b.mem l cur with
          | some (m, l) => ({ b with mem := m }, l)
          | none =>
            let b := b.dropId (b.mem cur).orderId
            let (m, l) := l.remove b.mem cur
            ({ b with mem := m }.deallocate cur, l)
        else (b, l)
      let b := { b with asks := b.asks.set 0 (px, l) }
      { book := if l.cnt = 0 then { b with asks := b.asks.eraseIdx 0 } else b
        toFill := w.toFill - take
        fills := w.fills ++ [fill] }

/-- One iteration of `market_order`'s loop over the bids. -/
def sweepBidsStep (w : Sweep) : Sweep :=
  match w.book.bids with
  | [] => w
  | (px, l) :: _ =>
    match l.head with
    | none => { w with book := { w.book with bids := w.book.bids.eraseIdx 0 } }
    | some cur =>
      let take := min w.toFill (w.book.mem cur).remainingQty
      let b := w.book.writeOrder cur fun x => { x with remainingQty := x.remainingQty - take }
      let l := l.decreaseAggregate take
      let fill : Fill := ⟨(b.mem cur).orderId, (b.mem cur).price, take⟩
      let (b, l) :=
        if (b.mem cur).remainingQty = 0 then
          match tryReplenishIceberg b.mem l cur with
          | some (m, l) => ({ b with mem := m }, l)
          | none =>
            let b := b.dropId (b.mem cur).orderId
            let (m, l) := l.remove b.mem cur
            ({ b with mem := m }.deallocate cur, l)
        else (b, l)
      let b := { b with bids := b.bids.set 0 (px, l) }
      { book := if l.cnt = 0 then { b with bids := b.bids.eraseIdx 0 } else b
        toFill := w.toFill - take
        fills := w.fills ++ [fill] }

/-- The loop of `market_order` over the asks; `none` when it has not ended after that many
iterations. -/
def sweepAsks : Nat → Sweep → Option Sweep
  | 0, w => if 0 < w.toFill ∧ w.book.asks ≠ [] then none else some w
  | n + 1, w =>
    if 0 < w.toFill ∧ w.book.asks ≠ [] then sweepAsks n (sweepAsksStep w) else some w

/-- The loop of `market_order` over the bids; `none` when it has not ended after that many
iterations. -/
def sweepBids : Nat → Sweep → Option Sweep
  | 0, w => if 0 < w.toFill ∧ w.book.bids ≠ [] then none else some w
  | n + 1, w =>
    if 0 < w.toFill ∧ w.book.bids ≠ [] then sweepBids n (sweepBidsStep w) else some w

/-- `OrderBook::market_order`, when its loop ends within `n` iterations. -/
def marketOrder (n : Nat) (b : OrderBook) (side : Side) (qty : Qty) :
    Option (List Fill × OrderBook) :=
  match side with
  | .buy => (sweepAsks n ⟨b, qty, []⟩).map fun w => (w.fills, w.book)
  | .sell => (sweepBids n ⟨b, qty, []⟩).map fun w => (w.fills, w.book)

/-- `ProRataPolicy::match`, when the loop of `get_level_orders` ends within `n` iterations. -/
def proRataMatch (n : Nat) (minFill : Qty) (b : OrderBook) (incomingSide : Side) (qty : Qty) :
    Option (List Fill × OrderBook) :=
  match (match incomingSide with
    | .buy => b.bestAsk
    | .sell => b.bestBid) with
  | none => some ([], b)
  | some px =>
    match getLevelOrders n b (match incomingSide with
      | .buy => .sell
      | .sell => .buy) px with
    | none => none
    | some orders =>
      let sizes := orders.map fun o => (b.mem o).remainingQty
      if orders = [] ∨ sizes.sum = 0 then some ([], b)
      else
        let ids := orders.map fun o => (b.mem o).orderId
        some (ProRata.apply px (orders.zip (ProRata.alloc minFill qty ids sizes)) ([], b))

/-- `MatchingPolicy::match`, when its loop ends within `n` iterations. -/
def run (n : Nat) (p : MatchingPolicy) (b : OrderBook) (side : Side) (qty : Qty) :
    Option (List Fill × OrderBook) :=
  match p with
  | .fifoStack => marketOrder n b side qty
  | .proRata minFill => proRataMatch n minFill b side qty

variable (b : OrderBook)

/-- Each copy of the loop walks the level on its side. -/
theorem getLevelOrders_eq (n : Nat) (side : Side) (price : Int) :
    getLevelOrders n b side price = match b.findLevel side price with
      | none => some []
      | some (_, l) => PriceLevel.walk b.mem n l.head := by
  cases side <;> rfl

theorem configureIceberg_eq (id : Nat) (display : Qty) :
    configureIceberg b id display = b.configureIceberg id display := by
  unfold configureIceberg OrderBook.configureIceberg
  cases b.findId id with
  | none => rfl
  | some o =>
    dsimp only
    split
    · rfl
    · generalize (b.writeOrder o _) = b'
      cases (b'.mem o).side <;> rfl

theorem applyFill_eq (id : Nat) (qty : Qty) : applyFill b id qty = b.applyFill id qty := by
  unfold applyFill OrderBook.applyFill
  cases b.findId id with
  | none => rfl
  | some o =>
    dsimp only
    generalize (b.writeOrder o _) = b'
    cases (b'.mem o).side <;> rfl

theorem addLimitOrder_eq (side : Side) (price : Int) (qty : Qty) :
    addLimitOrder b side price qty = b.addLimitOrder side price qty := by
  unfold addLimitOrder OrderBook.addLimitOrder
  cases b.allocate with
  | none => rfl
  | some r => cases side <;> rfl

theorem cancelOrder_eq (id : Nat) : cancelOrder b id = b.cancelOrder id := by
  unfold cancelOrder OrderBook.cancelOrder
  cases b.findId id with
  | none => rfl
  | some o =>
    dsimp only
    cases (b.mem o).side with
    | buy =>
      have hfind : b.findLevel .buy (b.mem o).price =
          Ladder.find (fun a b => decide (b < a)) (b.mem o).price b.bids := rfl
      rw [hfind]
      cases Ladder.find (fun a b => decide (b < a)) (b.mem o).price b.bids <;> rfl
    | sell =>
      have hfind : b.findLevel .sell (b.mem o).price =
          Ladder.find (fun a b => decide (a < b)) (b.mem o).price b.asks := rfl
      rw [hfind]
      cases Ladder.find (fun a b => decide (a < b)) (b.mem o).price b.asks <;> rfl

theorem modifyOrder_eq (id : Nat) (newPrice : Int) (newQty : Qty) :
    modifyOrder b id newPrice newQty = b.modifyOrder id newPrice newQty := by
  unfold modifyOrder OrderBook.modifyOrder
  cases b.findId id with
  | none => rfl
  | some o =>
    dsimp only
    split
    · cases (b.mem o).side <;> rfl
    · rw [addLimitOrder_eq, cancelOrder_eq]

theorem sweepAsksStep_eq (w : Sweep) : sweepAsksStep w = sweepStep .sell w := rfl

theorem sweepBidsStep_eq (w : Sweep) : sweepBidsStep w = sweepStep .buy w := rfl

theorem sweepAsks_eq (n : Nat) (w : Sweep) : sweepAsks n w =
    if (sweep .sell n w).active .sell then none else some (sweep .sell n w) := by
  have ha (w : Sweep) : w.active .sell = true ↔ 0 < w.toFill ∧ w.book.asks ≠ [] := by
    simp [Sweep.active, ladder]
  induction n generalizing w with
  | zero => simp only [sweepAsks, sweep, ha]
  | succ n ih =>
    unfold sweepAsks sweep
    rw [ih, sweepAsksStep_eq]
    by_cases h : 0 < w.toFill ∧ w.book.asks ≠ []
    · rw [if_pos h, if_pos ((ha w).mpr h)]
    · have hw : w.active .sell ≠ true := fun hw => h ((ha w).mp hw)
      rw [if_neg h, if_neg hw, if_neg hw]

theorem sweepBids_eq (n : Nat) (w : Sweep) : sweepBids n w =
    if (sweep .buy n w).active .buy then none else some (sweep .buy n w) := by
  have ha (w : Sweep) : w.active .buy = true ↔ 0 < w.toFill ∧ w.book.bids ≠ [] := by
    simp [Sweep.active, ladder]
  induction n generalizing w with
  | zero => simp only [sweepBids, sweep, ha]
  | succ n ih =>
    unfold sweepBids sweep
    rw [ih, sweepBidsStep_eq]
    by_cases h : 0 < w.toFill ∧ w.book.bids ≠ []
    · rw [if_pos h, if_pos ((ha w).mpr h)]
    · have hw : w.active .buy ≠ true := fun hw => h ((ha w).mp hw)
      rw [if_neg h, if_neg hw, if_neg hw]

/-- Each copy of the loop is the loop over the ladder of the opposite side. -/
theorem marketOrder_eq (n : Nat) (side : Side) (qty : Qty) :
    marketOrder n b side qty =
      if (sweep side.opposite n ⟨b, qty, []⟩).active side.opposite then none
      else some ((sweep side.opposite n ⟨b, qty, []⟩).fills,
        (sweep side.opposite n ⟨b, qty, []⟩).book) := by
  unfold marketOrder
  cases side with
  | buy =>
    have hs : Side.buy.opposite = .sell := rfl
    rw [hs, sweepAsks_eq]
    dsimp only
    split
    · rfl
    · rfl
  | sell =>
    have hs : Side.sell.opposite = .buy := rfl
    rw [hs, sweepBids_eq]
    dsimp only
    split
    · rfl
    · rfl

/-- Both copies of the choice of a side match against the opposite one. -/
theorem proRataMatch_opposite (n : Nat) (minFill : Qty) (incomingSide : Side) (qty : Qty) :
    proRataMatch n minFill b incomingSide qty = match b.best incomingSide.opposite with
      | none => some ([], b)
      | some px => (getLevelOrders n b incomingSide.opposite px).map fun orders =>
        let sizes := orders.map fun o => (b.mem o).remainingQty
        if orders = [] ∨ sizes.sum = 0 then ([], b)
        else
          let ids := orders.map fun o => (b.mem o).orderId
          ProRata.apply px (orders.zip (ProRata.alloc minFill qty ids sizes)) ([], b) := by
  have hmatch (found : Option (List Ptr)) (px : Int) : (match found with
      | none => none
      | some orders =>
        let sizes := orders.map fun o => (b.mem o).remainingQty
        if orders = [] ∨ sizes.sum = 0 then some (([], b) : List Fill × OrderBook)
        else
          let ids := orders.map fun o => (b.mem o).orderId
          some (ProRata.apply px (orders.zip (ProRata.alloc minFill qty ids sizes)) ([], b))) =
      found.map fun orders =>
        let sizes := orders.map fun o => (b.mem o).remainingQty
        if orders = [] ∨ sizes.sum = 0 then ([], b)
        else
          let ids := orders.map fun o => (b.mem o).orderId
          ProRata.apply px (orders.zip (ProRata.alloc minFill qty ids sizes)) ([], b) := by
    cases found with
    | none => rfl
    | some orders =>
      dsimp only [Option.map_some]
      split <;> rfl
  unfold proRataMatch
  simp only [hmatch]
  cases incomingSide with
  | buy => rfl
  | sell => rfl

/-- A walk that ends finds the orders that the policy shares the quantity among. -/
theorem proRataMatch_eq {n : Nat} {incomingSide : Side}
    (h : ∀ px, getLevelOrders n b incomingSide.opposite px =
      some (b.getLevelOrders incomingSide.opposite px)) (minFill qty : Qty) :
    proRataMatch n minFill b incomingSide qty =
      some (ProRata.match minFill b incomingSide qty) := by
  rw [proRataMatch_opposite, ProRata.match]
  cases b.best incomingSide.opposite with
  | none => rfl
  | some px =>
    dsimp only
    rw [h px]
    rfl

end OrderBook.Branches

namespace MatchingEngine.Branches

/-- The body of the queue loop of `process_triggers`, on the entry `o`. -/
def visit (submit : MatchingEngine → Side → Qty → Option MatchingEngine) (last : Int)
    (pass : Nat) (e : MatchingEngine) (o : Ptr) : Option MatchingEngine :=
  let x := e.book.mem o
  match x.stopType with
  | .none => some e
  | .stopMarket =>
    if triggered last x then
      match e.detach o with
      | (none, e) => some e
      | (some d, e) => submit (e.record (.trigger d.orderId last pass)) x.side d.qty
    else some { e with pendingStops := e.pendingStops ++ [o] }
  | .stopLimit =>
    if triggered last x then
      match e.detach o with
      | (none, e) => some e
      | (some d, e) =>
        some ((e.record (.trigger d.orderId last pass)).submitLimit x.side d.price d.qty
          d.displayQty).2
    else some { e with pendingStops := e.pendingStops ++ [o] }

/-- One iteration of the queue loop, with a read of a freed stop in the history. -/
def triggerEntry (submit : MatchingEngine → Side → Qty → Option MatchingEngine) (last : Int)
    (pass : Nat) (e : MatchingEngine) (o : Ptr) : Option MatchingEngine :=
  visit submit last pass (if pendingStop e.book o then e else e.record (.staleRead o)) o

/-- `MatchingEngine::process_triggers`, over the `submit_market` it calls. -/
def processTriggers (submit : MatchingEngine → Side → Qty → Option MatchingEngine)
    (e : MatchingEngine) (last : Int) : Option MatchingEngine :=
  let (fromBook, book) := e.book.takePendingStops
  let q := e.pendingStops ++ fromBook
  q.foldlM (triggerEntry submit last e.log.length) { e with book, pendingStops := [] }

/-- `MatchingEngine::submit_market`, when its loops end within `n` iterations and its recursion
within depth `n`. -/
def submitMarket : Nat → MatchingEngine → Side → Qty → Option (List Fill × MatchingEngine)
  | 0, _, _, _ => none
  | n + 1, e, side, qty =>
    match OrderBook.Branches.run n e.policy e.book side qty with
    | none => none
    | some (fills, book) =>
      let e := { e with book }.record (.market side qty fills)
      match fills.getLast? with
      | none => some (fills, e)
      | some f =>
        (processTriggers (fun e side qty => (submitMarket n e side qty).map Prod.snd) e
          f.price).map fun e => (fills, e)

end MatchingEngine.Branches

end Lob
