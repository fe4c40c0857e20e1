import Lob.Representation.Enqueue

/-!
# New orders

An accepted order takes a free slot and the next id. A limit order is queued at
its price; a pending stop is queued nowhere. A modification to another price
cancels the order and adds one.
-/

namespace Lob

namespace OrderBook

variable {b b' : OrderBook} {s t : Side} {id : Nat} {px k : Int} {o p : Ptr} {m : Memory}
  {v : PriceLadder}

/-- Slot `o`, which no id was mapped to, holds a new order. -/
structure Grows (b b' : OrderBook) (o : Ptr) : Prop where
  fresh : ¬ b.Live o
  id : (b'.mem o).orderId = b.nextOrderId
  place : ∀ p, p ≠ o → (b'.mem p).SamePlace (b.mem p)
  stop : ∀ p, p ≠ o → (b.mem p).stopType ≠ .none → b'.mem p = b.mem p
  find : ∀ j, b'.findId j = if j = b.nextOrderId then some o else b.findId j
  next : b'.nextOrderId = b.nextOrderId + 1
  pool : b'.pool.Owns fun q => q = o ∨ b.Live q
  shelved : ∀ t, Shelved b'.mem t (b'.ladder t)
  on : ∀ t k p, b'.On t k p ↔ b.On t k p ∨
    ((b'.mem o).stopType = .none ∧ p = o ∧ t = (b'.mem o).side ∧ k = (b'.mem o).price)
  unlinked : (b'.mem o).stopType ≠ .none → (b'.mem o).prev = none ∧ (b'.mem o).next = none

namespace Grows

variable (h : b.WellFormed) (hb : Grows b b' o)
include h hb

omit h in
/-- A mapped slot is not the free one. -/
theorem ne_of_find (hf : b.findId id = some p) : p ≠ o := by
  rintro rfl
  exact hb.fresh ⟨id, hf⟩

omit hb in
/-- The next id is never zero. -/
theorem nextOrderId_pos : 0 < b.nextOrderId := Nat.lt_of_le_of_lt (Nat.zero_le _) (h.idBound 0)

/-- The new id is mapped, and the others where they were. -/
theorem find_eq_some : b'.findId id = some p ↔
    id = b.nextOrderId ∧ p = o ∨ b.findId id = some p := by
  rw [hb.find]
  by_cases hj : id = b.nextOrderId
  · rw [if_pos hj]
    constructor
    · rintro he
      exact Or.inl ⟨hj, (Option.some.inj he).symm⟩
    · rintro (⟨_, rfl⟩ | hf)
      · rfl
      · exact absurd (h.id_lt hf) (by omega)
  · rw [if_neg hj]
    simp [hj]

/-- A well-formed book is still one with the new order. -/
theorem wellFormed : b'.WellFormed where
  shelved := hb.shelved
  mapped t k p ho := by
    rw [hb.find_eq_some h]
    rcases (hb.on t k p).mp ho with ho | ⟨_, rfl, _⟩
    · have hf := h.mapped t k p ho
      have hne := hb.ne_of_find hf
      rw [(hb.place p hne).orderId]
      exact Or.inr hf
    · exact Or.inl ⟨hb.id, rfl⟩
  table j p hf := by
    rcases (hb.find_eq_some h).mp hf with ⟨rfl, rfl⟩ | hf
    · exact ⟨hb.id, nextOrderId_pos h⟩
    · rw [(hb.place p (hb.ne_of_find hf)).orderId]
      exact h.table j p hf
  slotId p q hf := by
    by_cases hp : p = o
    · subst hp
      rw [hb.id] at hf
      rcases (hb.find_eq_some h).mp hf with ⟨_, rfl⟩ | hf
      · rfl
      · exact absurd (h.id_lt hf) (by omega)
    · rw [(hb.place p hp).orderId] at hf
      have hlt := h.idBound p
      rcases (hb.find_eq_some h).mp hf with ⟨he, _⟩ | hf
      · omega
      · exact h.slotId p q hf
  idBound p := by
    rw [hb.next]
    by_cases hp : p = o
    · subst hp
      rw [hb.id]
      omega
    · rw [(hb.place p hp).orderId]
      exact Nat.lt_succ_of_lt (h.idBound p)
  resting j p hf hs := by
    rw [hb.on]
    rcases (hb.find_eq_some h).mp hf with ⟨_, rfl⟩ | hf
    · exact Or.inr ⟨hs, rfl, rfl, rfl⟩
    · have hpl := hb.place p (hb.ne_of_find hf)
      rw [hpl.stopType] at hs
      rw [hpl.side, hpl.price]
      exact Or.inl (h.resting j p hf hs)
  unlinked j p hf hs := by
    rcases (hb.find_eq_some h).mp hf with ⟨_, rfl⟩ | hf
    · exact hb.unlinked hs
    · have hne := hb.ne_of_find hf
      rw [(hb.place p hne).stopType] at hs
      rw [hb.stop p hne hs]
      exact h.unlinked j p hf hs
  pool := by
    refine hb.pool.congr fun q => ?_
    constructor
    · rintro ⟨j, hf⟩
      rcases (hb.find_eq_some h).mp hf with ⟨_, rfl⟩ | hf
      · exact Or.inl rfl
      · exact Or.inr ⟨j, hf⟩
    · rintro (rfl | ⟨j, hf⟩)
      · exact ⟨_, (hb.find_eq_some h).mpr (Or.inl ⟨rfl, rfl⟩)⟩
      · exact ⟨j, (hb.find_eq_some h).mpr (Or.inr hf)⟩

omit h in
/-- No id in use moves. -/
theorem ages : Ages b b' where
  next := by
    rw [hb.next]
    exact Nat.le_succ _
  ids j hj := by
    rw [hb.find, if_neg (Nat.ne_of_lt hj)]
    exact Or.inr rfl

/-- The registered stops, and the new order if it is one. -/
theorem stopSlot_eq : b'.stopSlot = fun j =>
    if j = b.nextOrderId ∧ (b'.mem o).stopType ≠ .none then some (o, (b'.mem o).bare)
    else b.stopSlot j := by
  funext j
  apply Option.ext
  rintro ⟨p, x⟩
  rw [stopSlot_eq_some, hb.find_eq_some h]
  by_cases hj : j = b.nextOrderId
  · have hnone : b.stopSlot j = none := by
      rw [stopSlot]
      cases hf : b.findId j with
      | none => rfl
      | some q => exact absurd (h.id_lt hf) (by omega)
    by_cases hs : (b'.mem o).stopType = .none
    · rw [if_neg (by simp [hs]), hnone]
      simp only [reduceCtorEq, iff_false]
      rintro ⟨⟨_, rfl⟩ | hf, hs', _⟩
      · exact hs' hs
      · exact absurd (h.id_lt hf) (by omega)
    · rw [if_pos ⟨hj, hs⟩]
      simp only [Option.some.injEq, Prod.mk.injEq]
      constructor
      · rintro ⟨⟨_, rfl⟩ | hf, _, hx⟩
        · exact ⟨rfl, hx⟩
        · exact absurd (h.id_lt hf) (by omega)
      · rintro ⟨rfl, hx⟩
        exact ⟨Or.inl ⟨hj, rfl⟩, hs, hx⟩
  · rw [if_neg (fun hc => hj hc.1), stopSlot_eq_some]
    constructor
    · rintro ⟨⟨he, _⟩ | hf, hs, hx⟩
      · exact absurd he hj
      · have hne := hb.ne_of_find hf
        have hs' := hs
        rw [(hb.place p hne).stopType] at hs'
        rw [hb.stop p hne hs'] at hx
        exact ⟨hf, hs', hx⟩
    · rintro ⟨hf, hs, hx⟩
      have hne := hb.ne_of_find hf
      rw [hb.stop p hne hs]
      exact ⟨Or.inr hf, hs, hx⟩

end Grows

/-- Only the id table is read. -/
theorem findId_withQueue (b : OrderBook) (m : Memory) (pool : OrderPool) (n j : Nat) :
    { b with mem := m, pool, nextOrderId := n }.findId j = b.findId j :=
  findId_congr rfl j

/-- What `add_limit_order` writes into the slot it gets. -/
def limitOrder (b : OrderBook) (s : Side) (px : Int) (qty : Qty) : Order :=
  { orderId := b.nextOrderId, price := px, qty, remainingQty := qty, side := s }

/-- What `add_pending_stop` writes into the slot it gets. -/
def stopOrder (b : OrderBook) (s : Side) (stopPrice : Int) (qty : Qty) (stopType : StopType)
    (limitPrice : Int) (display : Qty) : Order :=
  { orderId := b.nextOrderId, side := s, stopPrice, stopType, price := limitPrice, qty
    remainingQty := qty, displayQty := display
    hiddenQty := if 0 < display ∧ display < qty then qty - display else 0 }

section New

variable {pool : OrderPool} {qty display : Qty} {stopPrice : Int} {stopType : StopType}

/-- With a full pool a limit order is refused. -/
theorem addLimitOrder_full (ha : b.pool.allocate = none) :
    b.addLimitOrder s px qty = (0, b) := by
  simp only [addLimitOrder, allocate, ha]

/-- With a full pool a stop is refused. -/
theorem addPendingStop_full (ha : b.pool.allocate = none) :
    b.addPendingStop s stopPrice qty stopType px display = (0, b) := by
  simp only [addPendingStop, allocate, ha]

variable (ha : b.pool.allocate = some (o, pool))
include ha

/-- An accepted limit order, with the slot it is given. -/
theorem addLimitOrder_eq : b.addLimitOrder s px qty = (b.nextOrderId,
    let r := enqueue (b.mem.modify o fun _ => b.limitOrder s px qty) s px (b.ladder s) o
    (({ b with mem := r.1, pool, nextOrderId := b.nextOrderId + 1 } : OrderBook).setLadder s
      r.2).putId o) := by
  have hladder : ({ b with mem := b.mem.modify o fun _ => b.limitOrder s px qty, pool
                           nextOrderId := b.nextOrderId + 1 } : OrderBook).ladder s =
      b.ladder s := by
    cases s <;> rfl
  have hwrite : (({ b with pool, mem := b.mem.modify o fun _ => {}
                           nextOrderId := b.nextOrderId + 1 } : OrderBook).writeOrder o fun x =>
        { x with orderId := b.nextOrderId, price := px, qty, remainingQty := qty, side := s,
                 type := .limit, timestamp := 0 }) =
      { b with mem := b.mem.modify o fun _ => b.limitOrder s px qty, pool,
               nextOrderId := b.nextOrderId + 1 } := by
    simp only [writeOrder, Memory.modify_modify]
    rfl
  simp only [addLimitOrder, allocate, ha, hwrite, hladder, setLevel, setLadder_setLadder,
    ladder_setLadder_self]
  rfl

/-- The ladder after an accepted limit order. -/
theorem addLimitOrder_ladder : (b.addLimitOrder s px qty).2.ladder s =
    (enqueue (b.mem.modify o fun _ => b.limitOrder s px qty) s px (b.ladder s) o).2 := by
  rw [addLimitOrder_eq ha]
  cases s <;> rfl

/-- An accepted stop, with the slot it is given. -/
theorem addPendingStop_eq : b.addPendingStop s stopPrice qty stopType px display =
    (b.nextOrderId,
      { ({ b with mem := b.mem.modify o fun _ =>
                    b.stopOrder s stopPrice qty stopType px display
                  pool, nextOrderId := b.nextOrderId + 1 } : OrderBook).putId o with
        pendingStopStorage := b.pendingStopStorage ++ [o] }) := by
  have hwrite : (({ b with pool, mem := b.mem.modify o fun _ => {}
                           nextOrderId := b.nextOrderId + 1 } : OrderBook).writeOrder o fun x =>
        { x with orderId := b.nextOrderId, side := s, stopPrice, stopType, price := px, qty,
                 remainingQty := qty, displayQty := display,
                 hiddenQty := if 0 < display ∧ display < qty then qty - display else 0 }) =
      { b with mem := b.mem.modify o fun _ => b.stopOrder s stopPrice qty stopType px display,
               pool, nextOrderId := b.nextOrderId + 1 } := by
    simp only [writeOrder, Memory.modify_modify]
    rfl
  simp only [addPendingStop, allocate, ha, hwrite]
  rfl

variable (h : b.WellFormed)
include h

/-- The slot that the pool hands out stands in no level. -/
theorem not_queued_of_allocate (t : Side) (k : Int) : ¬ Queued b.mem (b.ladder t) k o :=
  fun hq => (h.pool.allocate ha).1 (h.live_of_on hq)

/-- The orders of the other side keep their contents. -/
theorem enqueue_frame_other (px : Int) (x : Order) (hts : t ≠ s) {n : Int × PriceLevel}
    (hn : n ∈ b.ladder t) {p : Ptr} (hp : p ∈ n.2.orders b.mem) :
    (enqueue (b.mem.modify o fun _ => x) s px (b.ladder s) o).1 p = b.mem p := by
  have hno := not_queued_of_allocate ha h
  refine (h.shelved s).enqueue_frame (hno s) (fun hq => hts ?_) fun he =>
    hno t n.1 (he ▸ ⟨n.2, hn, hp⟩)
  exact ((h.shelved t).placed n hn p hp).2.1.symm.trans (h.placed hq).2.1

/-- A limit order grows the book by its slot. -/
theorem addLimitOrder_grows (s : Side) (px : Int) (qty : Qty) :
    Grows b (b.addLimitOrder s px qty).2 o := by
  have hno := not_queued_of_allocate ha h
  obtain ⟨hfresh, hpool⟩ := h.pool.allocate ha
  rw [addLimitOrder_eq ha]
  set r := enqueue (b.mem.modify o fun _ => b.limitOrder s px qty) s px (b.ladder s) o with hr
  set b₁ : OrderBook := ({ b with mem := r.1, pool, nextOrderId := b.nextOrderId + 1 } :
    OrderBook).setLadder s r.2 with hb₁
  have hmem : (b₁.putId o).mem = r.1 := mem_setLadder _
  have hladder (t : Side) : (b₁.putId o).ladder t = if t = s then r.2 else b.ladder t := by
    cases s <;> cases t <;> rfl
  have hbare (p : Ptr) : (r.1 p).bare = ((b.mem.modify o fun _ => b.limitOrder s px qty) p).bare :=
    enqueue_bare ..
  have hx : (b.limitOrder s px qty).price = px ∧ (b.limitOrder s px qty).side = s ∧
    (b.limitOrder s px qty).stopType = .none := ⟨rfl, rfl, rfl⟩
  have hself := hbare o
  rw [Memory.modify_self] at hself
  have hframe (t : Side) (hts : t ≠ s) (n : Int × PriceLevel) (hn : n ∈ b.ladder t) (p : Ptr)
      (hp : p ∈ n.2.orders b.mem) : r.1 p = b.mem p :=
    enqueue_frame_other ha h px _ hts hn hp
  constructor
  · exact hfresh
  · rw [hmem, Order.orderId_of_bare hself]
    rfl
  · intro p hp
    have hb := hbare p
    rw [Memory.modify_of_ne hp] at hb
    rw [hmem]
    exact Order.samePlace_of_bare hb
  · intro p hp hs
    rw [hmem]
    exact (h.shelved s).enqueue_frame (hno s) (fun hq => hs (h.placed hq).2.2) hp
  · intro j
    have hid : (b₁.mem o).orderId = b.nextOrderId :=
      (congrArg (fun m => (m o).orderId) hmem).trans (Order.orderId_of_bare hself)
    rw [findId_putId, hid, findId_setLadder, findId_withQueue]
  · exact nextOrderId_setLadder _
  · change b₁.pool.Owns _
    rw [hb₁, pool_setLadder]
    exact hpool
  · intro t
    rw [hmem, hladder]
    split
    · next hts =>
      subst hts
      exact (h.shelved t).enqueue (hno t) hx
    · next hts => exact (h.shelved t).frame (hframe t hts)
  · intro t k p
    rw [On, hmem, hladder, Order.stopType_of_bare hself, Order.side_of_bare hself,
      Order.price_of_bare hself]
    split
    · next hts =>
      subst hts
      rw [hr, (h.shelved t).queued_enqueue (hno t)]
      simp only [On, limitOrder]
      tauto
    · next hts =>
      rw [(h.shelved t).queued_frame (hframe t hts)]
      simp only [On, limitOrder, hts, false_and, and_false, or_false]
  · intro hs
    rw [hmem, Order.stopType_of_bare hself] at hs
    exact absurd rfl hs

/-- `add_limit_order` appends an entry with the next id. -/
theorem addLimitOrder_refines (s : Side) (px : Int) (qty : Qty) :
    Refines b (b.addLimitOrder s px qty).2 (b.queues.add s px qty) := by
  have hg := addLimitOrder_grows ha h s px qty
  have hno := not_queued_of_allocate ha h
  have hstop : ((b.addLimitOrder s px qty).2.mem o).stopType = .none := by
    have hb := enqueue_bare (b.mem.modify o fun _ => b.limitOrder s px qty) s px (b.ladder s) o o
    rw [Memory.modify_self] at hb
    rw [addLimitOrder_eq ha]
    refine Eq.trans ?_ (Order.stopType_of_bare hb)
    exact congrArg (fun m => (m o).stopType) (mem_setLadder _)
  refine ⟨hg.wellFormed h, ?_, ?_, hg.ages, ?_, ?_, ?_⟩
  · have hself := (h.shelved s).view_enqueue (hno s) px (b.limitOrder s px qty)
    have hother (t : Side) (hts : t ≠ s) := Ladder.mapValues_congr fun n hn =>
      (h.shelved t).view_frame hn fun p hp =>
        enqueue_frame_other ha h px (b.limitOrder s px qty) hts hn hp
    rw [addLimitOrder_eq ha]
    cases s with
    | buy =>
      have hsell := hother .sell (by decide)
      simp only [ladder] at hself hsell
      simp only [queues, putId, setLadder, ladder, hself, hsell, Queue.Book.add,
        Queue.Book.setLadder, Queue.Book.ladder]
      rfl
    | sell =>
      have hbuy := hother .buy (by decide)
      simp only [ladder] at hself hbuy
      simp only [queues, putId, setLadder, ladder, hself, hbuy, Queue.Book.add,
        Queue.Book.setLadder, Queue.Book.ladder]
      rfl
  · rw [hg.stopSlot_eq h]
    funext j
    rw [if_neg fun hc => hc.2 hstop]
  · rw [addLimitOrder_eq ha]
    exact pendingStopStorage_setLadder _
  · have hc := (OrderPool.allocate_capacity ha).1
    rw [addLimitOrder_eq ha, ← hc]
    exact congrArg OrderPool.capacity (pool_setLadder _)
  · have hc := (OrderPool.allocate_capacity ha).2
    rw [addLimitOrder_eq ha, ← hc]
    exact congrArg OrderPool.mode (pool_setLadder _)

variable (hst : stopType ≠ .none)

include hst in
/-- So does a stop. -/
theorem addPendingStop_grows (s : Side) (stopPrice : Int) (qty : Qty) (px : Int) (display : Qty) :
    Grows b (b.addPendingStop s stopPrice qty stopType px display).2 o := by
  have hno := not_queued_of_allocate ha h
  obtain ⟨hfresh, hpool⟩ := h.pool.allocate ha
  have hmem : (b.addPendingStop s stopPrice qty stopType px display).2.mem =
      b.mem.modify o fun _ => b.stopOrder s stopPrice qty stopType px display := by
    rw [addPendingStop_eq ha]
    rfl
  have hladder (t : Side) : (b.addPendingStop s stopPrice qty stopType px display).2.ladder t =
      b.ladder t := by
    rw [addPendingStop_eq ha]
    cases t <;> rfl
  have hframe (t : Side) (n : Int × PriceLevel) (hn : n ∈ b.ladder t) (p : Ptr)
      (hp : p ∈ n.2.orders b.mem) :
      (b.mem.modify o fun _ => b.stopOrder s stopPrice qty stopType px display) p = b.mem p :=
    Memory.modify_of_ne (ne_of_not_queued (hno t) hn hp)
  constructor
  · exact hfresh
  · rw [hmem, Memory.modify_self]
    rfl
  · intro p hp
    rw [hmem, Memory.modify_of_ne hp]
    exact ⟨rfl, rfl, rfl, rfl⟩
  · intro p hp _
    rw [hmem, Memory.modify_of_ne hp]
  · intro j
    rw [addPendingStop_eq ha]
    refine (findId_putId _ o j).trans ?_
    simp only [Memory.modify_self]
    exact congrArg (fun r => if j = b.nextOrderId then some o else r) (findId_withQueue b _ _ _ j)
  · rw [addPendingStop_eq ha]
    rfl
  · rw [addPendingStop_eq ha]
    exact hpool
  · intro t
    rw [hmem, hladder]
    exact (h.shelved t).frame (hframe t)
  · intro t k p
    rw [On, hmem, hladder, (h.shelved t).queued_frame (hframe t), Memory.modify_self]
    simp only [On, stopOrder, hst, false_and, or_false]
  · intro _
    rw [hmem, Memory.modify_self]
    exact ⟨rfl, rfl⟩

/-- A stop changes no queue, but uses an id. -/
theorem addPendingStop_queues (s : Side) (stopPrice : Int) (qty : Qty) (stopType : StopType)
    (px : Int) (display : Qty) :
    (b.addPendingStop s stopPrice qty stopType px display).2.queues =
      { b.queues with nextId := b.nextOrderId + 1 } := by
  have hno := not_queued_of_allocate ha h
  have hframe (t : Side) (n : Int × PriceLevel) (hn : n ∈ b.ladder t) (p : Ptr)
      (hp : p ∈ n.2.orders b.mem) :
      (b.mem.modify o fun _ => b.stopOrder s stopPrice qty stopType px display) p = b.mem p :=
    Memory.modify_of_ne (ne_of_not_queued (hno t) hn hp)
  have hother (t : Side) := Ladder.mapValues_congr fun n hn =>
    (h.shelved t).view_frame hn (hframe t n hn)
  have hbuy := hother .buy
  have hsell := hother .sell
  simp only [ladder] at hbuy hsell
  rw [addPendingStop_eq ha]
  simp only [queues, putId, hbuy, hsell]

include hst in
/-- `add_pending_stop` registers the stop under the next id. -/
theorem addPendingStop_stopSlot (s : Side) (stopPrice : Int) (qty : Qty) (px : Int)
    (display : Qty) :
    (b.addPendingStop s stopPrice qty stopType px display).2.stopSlot = fun j =>
      if j = b.nextOrderId then some (o, b.stopOrder s stopPrice qty stopType px display)
      else b.stopSlot j := by
  have hself : (b.addPendingStop s stopPrice qty stopType px display).2.mem o =
      b.stopOrder s stopPrice qty stopType px display := by
    rw [addPendingStop_eq ha]
    exact Memory.modify_self (m := b.mem) (o := o)
      (f := fun _ => b.stopOrder s stopPrice qty stopType px display)
  have hs : (b.stopOrder s stopPrice qty stopType px display).stopType ≠ .none := hst
  rw [(addPendingStop_grows ha h hst s stopPrice qty px display).stopSlot_eq h, hself]
  funext j
  simp only [hs, ne_eq, not_false_eq_true, and_true]
  rfl

end New

section Modify

variable {qty : Qty}

/-- A freed slot can be allocated again. -/
theorem allocate_deallocate (b : OrderBook) (o : Ptr) : (b.pool.deallocate o).allocate ≠ none := by
  rw [OrderPool.deallocate]
  cases hm : b.pool.mode <;> simp [OrderPool.allocate, hm]

/-- A cancellation leaves room for an order. -/
theorem allocate_cancelOrder (hf : b.findId id = some o) :
    ∃ r, (b.cancelOrder id).2.pool.allocate = some r := by
  simp only [OrderBook.cancelOrder, hf]
  exact Option.ne_none_iff_exists'.mp (allocate_deallocate _ o)

/-- `modify_order` to another price, in calls. -/
theorem modifyOrder_eq_add (hf : b.findId id = some o) (hpx : px ≠ (b.mem o).price) :
    b.modifyOrder id px qty =
      (true, ((b.cancelOrder id).2.addLimitOrder (b.mem o).side px qty).2) := by
  simp only [modifyOrder, hf, if_neg hpx]

/-- `modify_order` cancels and replaces an order whose price changes. -/
theorem modifyOrder_newPrice (h : b.WellFormed) (hf : b.findId id = some o)
    (hs : (b.mem o).stopType = .none) (hpx : px ≠ (b.mem o).price) :
    Refines b (b.modifyOrder id px qty).2 (b.queues.modify id px qty) := by
  have hid := WellFormed.stopSlot_of_resting hf hs
  obtain ⟨_, hc⟩ := h.cancelOrder hid
  obtain ⟨r, hr⟩ := allocate_cancelOrder hf
  have ha := addLimitOrder_refines hr hc.wf (b.mem o).side px qty
  obtain ⟨i, l, _, hl, hi, ho, hloc⟩ := h.lookup_some hid hf
  have hr := hc.trans ha
  rw [hc.queues] at hr
  rw [Queue.Book.modify, hloc]
  simp only [modifyOrder_eq_add hf hpx, if_neg hpx]
  exact hr

/-- `modify_order` does to the queues what its counterpart does. -/
theorem WellFormed.modifyOrder (h : b.WellFormed) (hid : b.stopSlot id = none) (px : Int)
    (qty : Qty) : Refines b (b.modifyOrder id px qty).2 (b.queues.modify id px qty) := by
  rcases h.lookup hid with ⟨hf, hloc⟩ | ⟨o, i, l, hf, _, hl, hi, ho, hloc⟩
  · rw [OrderBook.modifyOrder, hf, Queue.Book.modify, hloc]
    exact Refines.refl h
  · have hs := (h.placed ⟨l, List.mem_of_getElem? hi, ho⟩).2.2
    by_cases hpx : px = (b.mem o).price
    · subst hpx
      exact h.modifyOrder_samePrice hf hs qty
    · exact modifyOrder_newPrice h hf hs hpx

end Modify

end OrderBook

end Lob
