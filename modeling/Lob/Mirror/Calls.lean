import Lob.Mirror.Book

/-!
# Calls on the mirrored book

Every call with mirrored arguments does to the mirrored book what the call does
to the book. The sides that the calls read are those of slots in the id table,
which are named.
-/

namespace Lob

namespace OrderBook

variable {b : OrderBook} {s side : Side} {i id n : Nat} {o : Ptr} {l : PriceLevel}
  {px price newPrice limitPrice stopPrice : Int} {qty newQty display : Qty}
  {stopType : StopType}

/-- Mirroring exchanges the side of a named order. -/
theorem side_mirror (h : b.Named o) : (Memory.mirror b.mem o).side = (b.mem o).side.opposite :=
  Order.side_mirror h

/-- A write that keeps the id and that mirroring does not see. -/
theorem Named.write_mirror {f : Order → Order} (h : b.Named o)
    (hid : ∀ x, (f x).orderId = x.orderId) (hf : ∀ x, (f x).mirror = f x.mirror) :
    b.mirror.writeOrder o f = (b.writeOrder o f).mirror ∧ (b.writeOrder o f).Named o :=
  ⟨writeOrder_mirror hf, (KeepsNamed.writeOrder hid).named o h⟩

/-- A mapped id is mapped in the mirrored book. -/
theorem putId_mirror : (b.putId o).mirror = b.mirror.putId o := rfl

/-- `configure_iceberg` reads the side of a mapped order to find its level. -/
theorem configureIceberg_mirror (h : b.Closed) : b.mirror.configureIceberg id display =
    ((b.configureIceberg id display).1, (b.configureIceberg id display).2.mirror) := by
  unfold configureIceberg
  rw [findId_mirror]
  cases hf : b.findId id with
  | none => rfl
  | some o =>
    dsimp only
    split
    · rfl
    · obtain ⟨hw, hn⟩ := (h.slots id o hf).write_mirror (f := fun x =>
        { x with displayQty := display
                 hiddenQty := if display < x.qty then x.qty - display else 0
                 remainingQty := min display x.qty }) (fun _ => rfl) fun _ => rfl
      rw [hw]
      generalize b.writeOrder o _ = b' at hn
      rw [mem_mirror, mem_mirror, side_mirror hn, Memory.price_mirror, findLevel_mirror]
      cases b'.findLevel (b'.mem o).side (b'.mem o).price with
      | none => rfl
      | some r => exact Prod.ext rfl setLevel_mirror.symm

/-- `apply_fill` in every branch: refilled, exhausted, or partly filled. -/
theorem applyFill_mirror (h : b.Closed) : b.mirror.applyFill id qty =
    ((b.applyFill id qty).1, (b.applyFill id qty).2.mirror) := by
  unfold applyFill
  rw [findId_mirror]
  cases hf : b.findId id with
  | none => rfl
  | some o =>
    dsimp only
    rw [mem_mirror, Memory.remainingQty_mirror]
    generalize min qty (b.mem o).remainingQty = filled
    obtain ⟨hw, hn⟩ := (h.slots id o hf).write_mirror (f := fun x =>
      { x with remainingQty := x.remainingQty - filled }) (fun _ => rfl) fun _ => rfl
    rw [hw]
    generalize b.writeOrder o _ = b' at hn
    rw [mem_mirror, side_mirror hn, Memory.price_mirror, findLevel_mirror,
      Memory.remainingQty_mirror]
    generalize (b'.mem o).side = s
    generalize (b'.mem o).price = px
    cases b'.findLevel s px with
    | none => rfl
    | some r =>
      obtain ⟨i, l⟩ := r
      dsimp only
      generalize l.adjustAggregate (-filled.toInt64) = l
      rw [tryReplenish_mirror]
      split
      · cases tryReplenishIceberg b'.mem l o with
        | some r =>
          dsimp only [Option.map_some]
          rw [setLevel_mirror]
          rfl
        | none =>
          dsimp only [Option.map_none]
          rw [PriceLevel.remove_mirror]
          refine Prod.ext rfl ?_
          dsimp only
          rw [deallocate_mirror, dropId_mirror]
          split
          · rw [erasePrice_mirror, setLevel_mirror]
            rfl
          · rw [setLevel_mirror]
            rfl
      · exact Prod.ext rfl setLevel_mirror.symm

/-- `cancel_order` answers alike and leaves the mirrored book. -/
theorem cancelOrder_mirror (h : b.Closed) : b.mirror.cancelOrder id =
    ((b.cancelOrder id).1, (b.cancelOrder id).2.mirror) := by
  unfold cancelOrder
  rw [findId_mirror]
  cases hf : b.findId id with
  | none => rfl
  | some o =>
    dsimp only
    rw [mem_mirror, side_mirror (h.slots id o hf), Memory.price_mirror, findLevel_mirror]
    refine Prod.ext rfl ?_
    dsimp only
    rw [deallocate_mirror, dropId_mirror]
    cases b.findLevel (b.mem o).side (b.mem o).price with
    | none => rfl
    | some r =>
      obtain ⟨i, l⟩ := r
      dsimp only
      rw [PriceLevel.remove_mirror]
      dsimp only
      split
      · rw [eraseLevel_mirror, setLevel_mirror]
        rfl
      · rw [setLevel_mirror]
        rfl

/-- A level is found or made at the negated price, and the slot put at its back. -/
theorem enqueue_mirror {m : Memory} {v : PriceLadder} :
    enqueue (Memory.mirror m) s.opposite (-px) (PriceLadder.mirror v) o =
      (Memory.mirror (enqueue m s px v o).1, PriceLadder.mirror (enqueue m s px v o).2) := by
  have hfind : Ladder.findOrEmplace s.opposite.cmp (-px) ({} : PriceLevel)
      (PriceLadder.mirror v) =
      (PriceLadder.mirror (Ladder.findOrEmplace s.cmp px ({} : PriceLevel) v).1,
        (Ladder.findOrEmplace s.cmp px ({} : PriceLevel) v).2) :=
    Ladder.findOrEmplace_mapKeys (fun a b => s.cmp_opposite a b) neg_price_injective px _ v
  unfold enqueue
  rw [hfind]
  dsimp only
  rw [PriceLevel.pushBack_mirror]
  refine Prod.ext rfl ?_
  unfold PriceLadder.mirror
  rw [Ladder.mapKeys_set]

/-- A limit order on the other side at the negated price gets the same id. -/
theorem addLimitOrder_mirror (h : b.Closed) :
    b.mirror.addLimitOrder side.opposite (-price) qty =
      ((b.addLimitOrder side price qty).1, (b.addLimitOrder side price qty).2.mirror) := by
  cases ha : b.pool.allocate with
  | none =>
    rw [addLimitOrder_full ha, addLimitOrder_full (b := b.mirror) ha]
  | some r =>
    obtain ⟨o, pool⟩ := r
    have hnew : (b.limitOrder side price qty).mirror =
        b.mirror.limitOrder side.opposite (-price) qty := Order.mirror_of_named h.next
    have hmem : Memory.mirror (b.mem.modify o fun _ => b.limitOrder side price qty) =
        (Memory.mirror b.mem).modify o fun _ =>
          b.mirror.limitOrder side.opposite (-price) qty := Memory.mirror_modify hnew
    rw [addLimitOrder_eq ha, addLimitOrder_eq (b := b.mirror) ha, mem_mirror, ← hmem,
      ladder_mirror, enqueue_mirror]
    refine Prod.ext rfl ?_
    dsimp only
    rw [putId_mirror, setLadder_mirror]
    rfl

/-- A stop keeps its side and both of its prices. -/
theorem addPendingStop_mirror (h : b.Closed) :
    b.mirror.addPendingStop side.opposite (-stopPrice) qty stopType (-limitPrice) display =
      ((b.addPendingStop side stopPrice qty stopType limitPrice display).1,
        (b.addPendingStop side stopPrice qty stopType limitPrice display).2.mirror) := by
  cases ha : b.pool.allocate with
  | none =>
    rw [addPendingStop_full ha, addPendingStop_full (b := b.mirror) ha]
  | some r =>
    obtain ⟨o, pool⟩ := r
    have hnew : (b.stopOrder side stopPrice qty stopType limitPrice display).mirror =
        b.mirror.stopOrder side.opposite (-stopPrice) qty stopType (-limitPrice) display :=
      Order.mirror_of_named h.next
    have hmem : Memory.mirror (b.mem.modify o fun _ =>
          b.stopOrder side stopPrice qty stopType limitPrice display) =
        (Memory.mirror b.mem).modify o fun _ =>
          b.mirror.stopOrder side.opposite (-stopPrice) qty stopType (-limitPrice) display :=
      Memory.mirror_modify hnew
    rw [addPendingStop_eq ha, addPendingStop_eq (b := b.mirror) ha, mem_mirror, ← hmem]
    rfl

/-- `modify_order` in place, or as a cancel and an add at the negated price. -/
theorem modifyOrder_mirror (h : b.Closed) : b.mirror.modifyOrder id (-newPrice) newQty =
    ((b.modifyOrder id newPrice newQty).1, (b.modifyOrder id newPrice newQty).2.mirror) := by
  unfold modifyOrder
  rw [findId_mirror]
  cases hf : b.findId id with
  | none => rfl
  | some o =>
    dsimp only
    rw [cancelOrder_mirror h, mem_mirror, side_mirror (h.slots id o hf), Memory.price_mirror,
      findLevel_mirror]
    dsimp only
    rw [addLimitOrder_mirror (h.of_keepsNamed keepsNamed_cancelOrder)]
    simp only [Int.neg_inj]
    split
    · cases b.findLevel (b.mem o).side (b.mem o).price with
      | none => rfl
      | some r =>
        dsimp only
        rw [Memory.qty_mirror, Memory.remainingQty_mirror]
        generalize (if 0 ≤ newQty.toInt64 - (b.mem o).qty.toInt64 then
          (b.mem o).remainingQty + (newQty.toInt64 - (b.mem o).qty.toInt64).toUInt64
          else min (b.mem o).remainingQty newQty) = newRem
        have hw : (b.mirror.writeOrder o fun x =>
            { x with qty := newQty, remainingQty := newRem }) =
            (b.writeOrder o fun x => { x with qty := newQty, remainingQty := newRem }).mirror :=
          writeOrder_mirror fun _ => rfl
        rw [hw]
        exact Prod.ext rfl setLevel_mirror.symm
    · rfl

/-- The variables of the mirrored loop. -/
def Sweep.mirror (w : Sweep) : Sweep := ⟨w.book.mirror, w.toFill, w.fills.map Fill.mirror⟩

/-- A filled head is refilled or released alike. -/
theorem afterFill_mirror :
    b.mirror.afterFill l o = ((b.afterFill l o).1.mirror, (b.afterFill l o).2) := by
  unfold afterFill
  rw [mem_mirror, Memory.remainingQty_mirror, tryReplenish_mirror]
  split
  · cases tryReplenishIceberg b.mem l o with
    | some r => rfl
    | none =>
      dsimp only [Option.map_none]
      rw [Memory.orderId_mirror, ← dropId_mirror, mem_mirror, PriceLevel.remove_mirror]
      rfl
  · rfl

/-- An iteration reads the slots of its level and no side. -/
theorem sweepStep_mirror (w : Sweep) :
    sweepStep s.opposite w.mirror = (sweepStep s w).mirror := by
  have hladder : w.mirror.book.ladder s.opposite = PriceLadder.mirror (w.book.ladder s) :=
    ladder_mirror
  cases hv : w.book.ladder s with
  | nil =>
    rw [hv] at hladder
    simp only [sweepStep, hv, hladder, PriceLadder.mirror, Ladder.mapKeys, List.map_nil]
  | cons n rest =>
    rw [hv] at hladder
    cases hh : n.2.head with
    | none =>
      have herase : w.mirror.book.eraseLevel s.opposite 0 = (w.book.eraseLevel s 0).mirror :=
        eraseLevel_mirror.symm
      simp only [sweepStep, hv, hladder, PriceLadder.mirror, Ladder.mapKeys, List.map_cons, hh,
        herase]
      rfl
    | some cur =>
      have hmem : w.mirror.book.mem = Memory.mirror w.book.mem := rfl
      rw [sweepStep_of_head hv hh, sweepStep_of_head hladder hh, hmem,
        Memory.remainingQty_mirror]
      dsimp only [Sweep.mirror]
      generalize min w.toFill (w.book.mem cur).remainingQty = amt
      have hw : (w.book.mirror.writeOrder cur fun x =>
          { x with remainingQty := x.remainingQty - amt }) =
          (w.book.writeOrder cur fun x =>
            { x with remainingQty := x.remainingQty - amt }).mirror :=
        writeOrder_mirror fun _ => rfl
      rw [hw, afterFill_mirror]
      generalize w.book.writeOrder cur _ = b
      simp only [Sweep.mk.injEq, true_and]
      refine ⟨?_, ?_⟩
      · split
        · rw [eraseLevel_mirror, setLevel_mirror]
        · rw [setLevel_mirror]
      · rw [List.map_append]
        rfl

/-- The loop goes on or stops alike. -/
theorem active_mirror (w : Sweep) : w.mirror.active s.opposite = w.active s := by
  have hladder : w.mirror.book.ladder s.opposite = PriceLadder.mirror (w.book.ladder s) :=
    ladder_mirror
  unfold Sweep.active
  rw [hladder, PriceLadder.mirror, Ladder.mapKeys, List.isEmpty_map]
  rfl

/-- Any number of iterations, one by one. -/
theorem sweep_mirror (n : Nat) (w : Sweep) :
    sweep s.opposite n w.mirror = (sweep s n w).mirror := by
  induction n generalizing w with
  | zero => rfl
  | succ n ih =>
    unfold sweep
    rw [active_mirror, sweepStep_mirror, ih]
    split
    · rfl
    · rfl

/-- A market order on the other side ends in the same fills at negated prices. -/
theorem marketOrder_mirror : Branches.marketOrder n b.mirror side.opposite qty =
    (Branches.marketOrder n b side qty).map fun r => (r.1.map Fill.mirror, r.2.mirror) := by
  have hsweep : sweep side.opposite.opposite n ⟨b.mirror, qty, []⟩ =
      (sweep side.opposite n ⟨b, qty, []⟩).mirror := sweep_mirror n ⟨b, qty, []⟩
  rw [Branches.marketOrder_eq, Branches.marketOrder_eq, hsweep, active_mirror]
  split
  · rfl
  · rfl

/-- The best price of the other side is the negated one. -/
theorem best_mirror : b.mirror.best s.opposite = (b.best s).map fun px => -px := by
  unfold best
  rw [ladder_mirror]
  cases b.ladder s with
  | nil => rfl
  | cons n v => rfl

/-- `get_level_orders` finds the same slots. -/
theorem getLevelOrders_mirror : Branches.getLevelOrders n b.mirror s.opposite (-px) =
    Branches.getLevelOrders n b s px := by
  rw [Branches.getLevelOrders_eq, Branches.getLevelOrders_eq, findLevel_mirror]
  cases b.findLevel s px with
  | none => rfl
  | some r => exact PriceLevel.walk_mirror n r.2.head

/-- The shares are applied one by one to the mirrored book. -/
theorem proRata_apply_mirror (ps : List (Ptr × Qty)) (fills : List Fill) (h : b.Closed) :
    ProRata.apply (-px) ps (fills.map Fill.mirror, b.mirror) =
      ((ProRata.apply px ps (fills, b)).1.map Fill.mirror,
        (ProRata.apply px ps (fills, b)).2.mirror) := by
  induction ps generalizing b fills with
  | nil => rfl
  | cons n ps ih =>
    unfold ProRata.apply
    split
    · exact ih fills h
    · have hid : (b.mirror.mem n.1).orderId = (b.mem n.1).orderId := rfl
      dsimp only
      rw [hid, applyFill_mirror h, ← ih _ (h.of_keepsNamed keepsNamed_applyFill)]
      by_cases hfill : 0 < (b.applyFill (b.mem n.1).orderId n.2).1
      · rw [if_pos hfill, if_pos hfill, List.map_append]
        rfl
      · rw [if_neg hfill, if_neg hfill]

/-- The shares are computed of quantities alone, so they are the same. -/
theorem proRataMatch_mirror {minFill : Qty} (h : b.Closed) :
    Branches.proRataMatch n minFill b.mirror side.opposite qty =
      (Branches.proRataMatch n minFill b side qty).map fun r =>
        (r.1.map Fill.mirror, r.2.mirror) := by
  rw [Branches.proRataMatch_opposite, Branches.proRataMatch_opposite, best_mirror]
  cases b.best side.opposite with
  | none => rfl
  | some px =>
    simp only [Option.map_some, getLevelOrders_mirror, Option.map_map]
    refine Option.map_congr fun orders _ => ?_
    dsimp only [Function.comp]
    by_cases hnone : orders = [] ∨ (orders.map fun o => (b.mem o).remainingQty).sum = 0
    · have hmirror : orders = [] ∨
          (orders.map fun o => (b.mirror.mem o).remainingQty).sum = 0 := hnone
      rw [if_pos hmirror, if_pos hnone]
      rfl
    · have hmirror : ¬ (orders = [] ∨
          (orders.map fun o => (b.mirror.mem o).remainingQty).sum = 0) := hnone
      rw [if_neg hmirror, if_neg hnone]
      exact proRata_apply_mirror _ [] h

/-- Both policies match the mirrored order alike. -/
theorem run_mirror (policy : MatchingPolicy) (h : b.Closed) :
    Branches.run n policy b.mirror side.opposite qty =
      (Branches.run n policy b side qty).map fun r => (r.1.map Fill.mirror, r.2.mirror) := by
  cases policy with
  | fifoStack => exact marketOrder_mirror
  | proRata minFill => exact proRataMatch_mirror h

end OrderBook

end Lob
