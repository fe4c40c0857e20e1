import Lob.Model.Branches
import Lob.Representation.Growth

/-!
# Named slots

Slots that were never written hold no id and no side. Whatever calls are made,
on pending stops too, the id table and the lists of pending stops only point to
slots that hold an id.
-/

namespace Lob

namespace OrderBook

/-- The slot holds the id of an order, present or past. -/
def Named (b : OrderBook) (p : Ptr) : Prop := (b.mem p).orderId ≠ 0

/-- The id table and the list of stops point to named slots. -/
structure Closed (b : OrderBook) : Prop where
  next : b.nextOrderId ≠ 0
  slots : ∀ id p, b.findId id = some p → b.Named p
  storage : ∀ p ∈ b.pendingStopStorage, b.Named p

/-- A step that keeps named slots named and points to no other ones. -/
structure KeepsNamed (b b' : OrderBook) : Prop where
  named : ∀ p, b.Named p → b'.Named p
  next : b.nextOrderId ≤ b'.nextOrderId
  slots : ∀ id p, b'.findId id = some p → (∃ j, b.findId j = some p) ∨ b'.Named p
  storage : ∀ p ∈ b'.pendingStopStorage, p ∈ b.pendingStopStorage ∨ b'.Named p

variable {b b' b'' : OrderBook} {s : Side} {px : Int} {i id : Nat} {o p : Ptr} {l l' : PriceLevel}
  {m m' : Memory}

/-- Doing nothing keeps the slots named. -/
theorem KeepsNamed.refl (b : OrderBook) : KeepsNamed b b :=
  ⟨fun _ h => h, Nat.le_refl _, fun id _ h => Or.inl ⟨id, h⟩, fun _ h => Or.inl h⟩

/-- Steps that keep the slots named compose. -/
theorem KeepsNamed.trans (h : KeepsNamed b b') (h' : KeepsNamed b' b'') : KeepsNamed b b'' where
  named p hp := h'.named p (h.named p hp)
  next := Nat.le_trans h.next h'.next
  slots id p hf := by
    rcases h'.slots id p hf with ⟨j, hj⟩ | hn
    · exact (h.slots j p hj).imp_right (h'.named p)
    · exact Or.inr hn
  storage p hp := by
    rcases h'.storage p hp with hp | hn
    · exact (h.storage p hp).imp_right (h'.named p)
    · exact Or.inr hn

/-- A book that points to named slots still does after such a step. -/
theorem Closed.of_keepsNamed (h : b.Closed) (hk : KeepsNamed b b') : b'.Closed where
  next := Nat.ne_of_gt (Nat.lt_of_lt_of_le (Nat.pos_of_ne_zero h.next) hk.next)
  slots id p hf := by
    rcases hk.slots id p hf with ⟨j, hj⟩ | hn
    · exact hk.named p (h.slots j p hj)
    · exact hn
  storage p hp := by
    rcases hk.storage p hp with hp | hn
    · exact hk.named p (h.storage p hp)
    · exact hn

/-- The empty book points nowhere. -/
theorem closed_new (capacity : Nat) (mode : AllocMode) : (new capacity mode).Closed where
  next := Nat.one_ne_zero
  slots id p hf := by
    rw [findId_new] at hf
    contradiction
  storage p hp := by simp [new] at hp

section Parts

/-- Memory in which every slot holds the same id. -/
theorem KeepsNamed.withMem (h : ∀ p, (m p).orderId = (b.mem p).orderId) :
    KeepsNamed b { b with mem := m } where
  named p hp := by
    unfold Named at hp ⊢
    rw [h]
    exact hp
  next := Nat.le_refl _
  slots id _ hf := Or.inl ⟨id, hf⟩
  storage _ hp := Or.inl hp

/-- A write to an order that keeps its id. -/
theorem KeepsNamed.writeOrder {f : Order → Order} (h : ∀ x, (f x).orderId = x.orderId) :
    KeepsNamed b (b.writeOrder o f) := by
  refine KeepsNamed.withMem fun p => ?_
  unfold Memory.modify
  split
  · exact h _
  · rfl

/-- A ladder names no order. -/
theorem KeepsNamed.setLadder (v : PriceLadder) : KeepsNamed b (b.setLadder s v) := by
  cases s with
  | buy => exact ⟨fun _ h => h, Nat.le_refl _, fun id _ h => Or.inl ⟨id, h⟩, fun _ h => Or.inl h⟩
  | sell => exact ⟨fun _ h => h, Nat.le_refl _, fun id _ h => Or.inl ⟨id, h⟩, fun _ h => Or.inl h⟩

/-- A level written back names no order. -/
theorem KeepsNamed.setLevel : KeepsNamed b (b.setLevel s i px l) := KeepsNamed.setLadder _

/-- An erased level takes no id away. -/
theorem KeepsNamed.eraseLevel : KeepsNamed b (b.eraseLevel s i) := KeepsNamed.setLadder _

/-- Erasing a level by its price takes no id away. -/
theorem KeepsNamed.erasePrice : KeepsNamed b (b.erasePrice s px) := KeepsNamed.setLadder _

/-- An unmapped id leaves its slot named. -/
theorem KeepsNamed.dropId : KeepsNamed b (b.dropId id) where
  named p hp := by
    unfold Named at hp ⊢
    rw [mem_dropId]
    exact hp
  next := Nat.le_of_eq nextOrderId_dropId.symm
  slots j p hf := by
    rw [findId_dropId] at hf
    split at hf
    · contradiction
    · exact Or.inl ⟨j, hf⟩
  storage p hp := by
    rw [pendingStopStorage_dropId] at hp
    exact Or.inl hp

/-- A freed slot keeps its id until it is written again. -/
theorem KeepsNamed.deallocate : KeepsNamed b (b.deallocate o) :=
  ⟨fun _ h => h, Nat.le_refl _, fun id _ h => Or.inl ⟨id, h⟩, fun _ h => Or.inl h⟩

/-- A slot is written whole, with an id. -/
theorem KeepsNamed.newOrder {x : Order} {pool : OrderPool} (hx : x.orderId ≠ 0) :
    KeepsNamed b { b with
      mem := b.mem.modify o fun _ => x
      pool, nextOrderId := b.nextOrderId + 1 } where
  named p hp := by
    unfold Named at hp ⊢
    dsimp only
    unfold Memory.modify
    split
    · exact hx
    · exact hp
  next := Nat.le_succ _
  slots id _ hf := Or.inl ⟨id, hf⟩
  storage _ hp := Or.inl hp

/-- Mapping the id of a named slot. -/
theorem KeepsNamed.putId (ho : b.Named o) : KeepsNamed b (b.putId o) where
  named _ hp := hp
  next := Nat.le_refl _
  slots j p hf := by
    rw [findId_putId] at hf
    split at hf
    · rw [← Option.some.inj hf]
      exact Or.inr ho
    · exact Or.inl ⟨j, hf⟩
  storage _ hp := Or.inl hp

/-- Storing a named slot as a stop. -/
theorem KeepsNamed.addStop (ho : b.Named o) :
    KeepsNamed b { b with pendingStopStorage := b.pendingStopStorage ++ [o] } where
  named _ hp := hp
  next := Nat.le_refl _
  slots j _ hf := Or.inl ⟨j, hf⟩
  storage p hp := by
    rcases List.mem_append.mp hp with hp | hp
    · exact Or.inl hp
    · rw [List.mem_singleton.mp hp]
      exact Or.inr ho

/-- Fewer stops. -/
theorem KeepsNamed.withStorage {os : List Ptr} (h : ∀ p ∈ os, p ∈ b.pendingStopStorage) :
    KeepsNamed b { b with pendingStopStorage := os } :=
  ⟨fun _ hp => hp, Nat.le_refl _, fun id _ hf => Or.inl ⟨id, hf⟩, fun p hp => Or.inl (h p hp)⟩

/-- Unlinking keeps every id. -/
theorem orderId_remove : ((l.remove m o).1 p).orderId = (m p).orderId :=
  Order.orderId_of_bare PriceLevel.remove_bare

/-- Appending keeps every id. -/
theorem orderId_pushBack : ((l.pushBack m o).1 p).orderId = (m p).orderId :=
  Order.orderId_of_bare PriceLevel.pushBack_bare

/-- A write that keeps the id in its slot keeps every id. -/
theorem orderId_modify {f : Order → Order} (h : ∀ x, (f x).orderId = x.orderId) :
    (m.modify o f p).orderId = (m p).orderId := by
  unfold Memory.modify
  split
  · exact h _
  · rfl

/-- Showing the next slice moves an order and keeps every id. -/
theorem orderId_tryReplenish (h : tryReplenishIceberg m l o = some (m', l')) :
    (m' p).orderId = (m p).orderId := by
  rw [tryReplenishIceberg_eq] at h
  split at h
  · have hm : ((l.remove m o).2.pushBack ((l.remove m o).1.modify o Order.refill) o).1 = m' :=
      congrArg Prod.fst (Option.some.inj h)
    have hid (x : Order) : x.refill.orderId = x.orderId := rfl
    rw [← hm, orderId_pushBack, orderId_modify hid, orderId_remove]
  · contradiction

end Parts

/-- What `market_order` does with the head of a level once it has filled it. -/
def afterFill (b : OrderBook) (l : PriceLevel) (cur : Ptr) : OrderBook × PriceLevel :=
  if (b.mem cur).remainingQty = 0 then
    match tryReplenishIceberg b.mem l cur with
    | some (m, l) => ({ b with mem := m }, l)
    | none =>
      let b := b.dropId (b.mem cur).orderId
      let (m, l) := l.remove b.mem cur
      ({ b with mem := m }.deallocate cur, l)
  else (b, l)

/-- An iteration of the loop that finds an order. -/
theorem sweepStep_of_head {w : Sweep} {n : Int × PriceLevel} {rest : PriceLadder}
    (hv : w.book.ladder s = n :: rest) (hh : n.2.head = some o) : sweepStep s w =
      let take := min w.toFill (w.book.mem o).remainingQty
      let b := w.book.writeOrder o fun x => { x with remainingQty := x.remainingQty - take }
      let r := b.afterFill (n.2.decreaseAggregate take) o
      { book := if r.2.cnt = 0 then (r.1.setLevel s 0 n.1 r.2).eraseLevel s 0
          else r.1.setLevel s 0 n.1 r.2
        toFill := w.toFill - take
        fills := w.fills ++ [⟨(b.mem o).orderId, (b.mem o).price, take⟩] } := by
  simp only [sweepStep, hv, hh]
  rfl

section Calls

variable {display qty newQty : Qty} {side : Side} {price newPrice limitPrice stopPrice : Int}
  {stopType : StopType}

/-- `configure_iceberg` writes quantities. -/
theorem keepsNamed_configureIceberg : KeepsNamed b (b.configureIceberg id display).2 := by
  unfold configureIceberg
  split
  · exact KeepsNamed.refl b
  · split
    · exact KeepsNamed.refl b
    · dsimp only
      split
      · refine KeepsNamed.trans ?_ KeepsNamed.setLevel
        exact KeepsNamed.writeOrder fun _ => rfl
      · exact KeepsNamed.writeOrder fun _ => rfl

/-- `apply_fill` writes quantities, moves the order or releases it. -/
theorem keepsNamed_applyFill : KeepsNamed b (b.applyFill id qty).2 := by
  unfold applyFill
  split
  · exact KeepsNamed.refl b
  · dsimp only
    split
    · exact KeepsNamed.writeOrder fun _ => rfl
    · split
      · split
        · next hr =>
          refine KeepsNamed.trans ?_ KeepsNamed.setLevel
          refine KeepsNamed.trans ?_ (KeepsNamed.withMem fun _ => orderId_tryReplenish hr)
          exact KeepsNamed.writeOrder fun _ => rfl
        · refine KeepsNamed.trans ?_ (KeepsNamed.dropId.trans KeepsNamed.deallocate)
          split
          · refine KeepsNamed.trans ?_ (KeepsNamed.setLevel.trans KeepsNamed.erasePrice)
            refine KeepsNamed.trans ?_ (KeepsNamed.withMem fun _ => orderId_remove)
            exact KeepsNamed.writeOrder fun _ => rfl
          · refine KeepsNamed.trans ?_ KeepsNamed.setLevel
            refine KeepsNamed.trans ?_ (KeepsNamed.withMem fun _ => orderId_remove)
            exact KeepsNamed.writeOrder fun _ => rfl
      · refine KeepsNamed.trans ?_ KeepsNamed.setLevel
        exact KeepsNamed.writeOrder fun _ => rfl

/-- `cancel_order` unlinks and releases, whatever slot the id table gives it. -/
theorem keepsNamed_cancelOrder : KeepsNamed b (b.cancelOrder id).2 := by
  unfold cancelOrder
  split
  · exact KeepsNamed.refl b
  · dsimp only
    refine KeepsNamed.trans ?_ (KeepsNamed.dropId.trans KeepsNamed.deallocate)
    split
    · split
      · refine KeepsNamed.trans ?_ (KeepsNamed.setLevel.trans KeepsNamed.eraseLevel)
        exact KeepsNamed.withMem fun _ => orderId_remove
      · refine KeepsNamed.trans ?_ KeepsNamed.setLevel
        exact KeepsNamed.withMem fun _ => orderId_remove
    · exact KeepsNamed.refl b

/-- A new order is written to a slot with the next id. -/
theorem keepsNamed_addLimitOrder (hnext : b.nextOrderId ≠ 0) :
    KeepsNamed b (b.addLimitOrder side price qty).2 := by
  cases ha : b.pool.allocate with
  | none =>
    rw [addLimitOrder_full ha]
    exact KeepsNamed.refl b
  | some r =>
    obtain ⟨o, pool⟩ := r
    have hnew : KeepsNamed b { b with
        mem := b.mem.modify o fun _ => b.limitOrder side price qty
        pool, nextOrderId := b.nextOrderId + 1 } := KeepsNamed.newOrder hnext
    have hid (p : Ptr) : ((enqueue (b.mem.modify o fun _ => b.limitOrder side price qty) side
        price (b.ladder side) o).1 p).orderId =
          ((b.mem.modify o fun _ => b.limitOrder side price qty) p).orderId :=
      Order.orderId_of_bare (enqueue_bare _ _ _ _ _ _)
    rw [addLimitOrder_eq ha]
    refine (hnew.trans (KeepsNamed.withMem hid)).trans ?_
    refine (KeepsNamed.setLadder _).trans (KeepsNamed.putId ?_)
    unfold Named
    rw [mem_setLadder]
    dsimp only
    rw [hid, Memory.modify_self]
    exact hnext

/-- `modify_order` writes quantities, or cancels and adds. -/
theorem keepsNamed_modifyOrder (hnext : b.nextOrderId ≠ 0) :
    KeepsNamed b (b.modifyOrder id newPrice newQty).2 := by
  unfold modifyOrder
  split
  · exact KeepsNamed.refl b
  · dsimp only
    split
    · split
      · refine KeepsNamed.trans ?_ KeepsNamed.setLevel
        exact KeepsNamed.writeOrder fun _ => rfl
      · exact KeepsNamed.refl b
    · have hc : KeepsNamed b (b.cancelOrder id).2 := keepsNamed_cancelOrder
      have hpos := Nat.pos_of_ne_zero hnext
      exact hc.trans (keepsNamed_addLimitOrder (Nat.ne_of_gt (Nat.lt_of_lt_of_le hpos hc.next)))

/-- After a fill the head of a level stays, moves to the back or is released. -/
theorem keepsNamed_afterFill : KeepsNamed b (b.afterFill l o).1 := by
  unfold afterFill
  split
  · split
    · next hr => exact KeepsNamed.withMem fun _ => orderId_tryReplenish hr
    · refine KeepsNamed.trans ?_ KeepsNamed.deallocate
      refine KeepsNamed.dropId.trans (KeepsNamed.withMem fun p => ?_)
      rw [orderId_remove]
  · exact KeepsNamed.refl b

/-- One iteration of `market_order`. -/
theorem keepsNamed_sweepStep {w : Sweep} : KeepsNamed w.book (sweepStep s w).book := by
  cases hv : w.book.ladder s with
  | nil =>
    simp only [sweepStep, hv]
    exact KeepsNamed.refl _
  | cons n rest =>
    cases hh : n.2.head with
    | none =>
      simp only [sweepStep, hv, hh]
      exact KeepsNamed.eraseLevel
    | some cur =>
      rw [sweepStep_of_head hv hh]
      dsimp only
      split
      · refine KeepsNamed.trans ?_ (KeepsNamed.setLevel.trans KeepsNamed.eraseLevel)
        refine KeepsNamed.trans ?_ keepsNamed_afterFill
        exact KeepsNamed.writeOrder fun _ => rfl
      · refine KeepsNamed.trans ?_ KeepsNamed.setLevel
        refine KeepsNamed.trans ?_ keepsNamed_afterFill
        exact KeepsNamed.writeOrder fun _ => rfl

/-- Every number of iterations, by induction. -/
theorem keepsNamed_sweep (n : Nat) (w : Sweep) : KeepsNamed w.book (sweep s n w).book := by
  induction n generalizing w with
  | zero => exact KeepsNamed.refl _
  | succ n ih =>
    rw [sweep]
    split
    · exact keepsNamed_sweepStep.trans (ih _)
    · exact KeepsNamed.refl _

/-- A market order that ends. -/
theorem keepsNamed_marketOrder {n : Nat} {r : List Fill × OrderBook}
    (h : Branches.marketOrder n b side qty = some r) : KeepsNamed b r.2 := by
  rw [Branches.marketOrder_eq] at h
  split at h
  · contradiction
  · rw [← Option.some.inj h]
    exact keepsNamed_sweep n ⟨b, qty, []⟩

/-- The shares are fills from outside, one after another. -/
theorem keepsNamed_proRata_apply (ps : List (Ptr × Qty)) (fills : List Fill) :
    KeepsNamed b (ProRata.apply px ps (fills, b)).2 := by
  induction ps generalizing b fills with
  | nil => exact KeepsNamed.refl b
  | cons n ps ih =>
    rw [ProRata.apply]
    split
    · exact ih fills
    · exact keepsNamed_applyFill.trans (ih _)

/-- An order matched under either policy. -/
theorem keepsNamed_run {n : Nat} {r : List Fill × OrderBook} (policy : MatchingPolicy)
    (h : Branches.run n policy b side qty = some r) : KeepsNamed b r.2 := by
  cases policy with
  | fifoStack => exact keepsNamed_marketOrder h
  | proRata minFill =>
    rw [Branches.run, Branches.proRataMatch_opposite] at h
    split at h
    · rw [← Option.some.inj h]
      exact KeepsNamed.refl b
    · obtain ⟨orders, _, hr⟩ := Option.map_eq_some_iff.mp h
      rw [← hr]
      dsimp only
      split
      · exact KeepsNamed.refl b
      · exact keepsNamed_proRata_apply _ _

/-- A stop is written to a slot with the next id. -/
theorem keepsNamed_addPendingStop (hnext : b.nextOrderId ≠ 0) :
    KeepsNamed b (b.addPendingStop side stopPrice qty stopType limitPrice display).2 := by
  cases ha : b.pool.allocate with
  | none =>
    rw [addPendingStop_full ha]
    exact KeepsNamed.refl b
  | some r =>
    obtain ⟨o, pool⟩ := r
    have hnew : KeepsNamed b { b with
        mem := b.mem.modify o fun _ => b.stopOrder side stopPrice qty stopType limitPrice display
        pool, nextOrderId := b.nextOrderId + 1 } := KeepsNamed.newOrder hnext
    have hnamed : Named { b with
        mem := b.mem.modify o fun _ => b.stopOrder side stopPrice qty stopType limitPrice display
        pool, nextOrderId := b.nextOrderId + 1 } o := by
      unfold Named
      dsimp only
      rw [Memory.modify_self]
      exact hnext
    rw [addPendingStop_eq ha]
    exact (hnew.trans (KeepsNamed.putId hnamed)).trans (KeepsNamed.addStop hnamed)

/-- A detached stop leaves the list and the id table. -/
theorem keepsNamed_detachPending : KeepsNamed b (b.detachPending id).2 := by
  unfold detachPending
  have hless : KeepsNamed b { b with
      pendingStopStorage := b.pendingStopStorage.eraseP fun o => (b.mem o).orderId = id } :=
    KeepsNamed.withStorage fun p hp => List.mem_of_mem_eraseP hp
  dsimp only
  split
  · exact hless.trans KeepsNamed.dropId
  · exact hless

end Calls

end OrderBook

end Lob
