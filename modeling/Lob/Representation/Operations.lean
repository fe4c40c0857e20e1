import Lob.Representation.Moves

/-!
# Operations on resting orders

Each operation of `OrderBook` on an id that names no pending stop does to the
queues what its counterpart on `Queue.Book` does, and returns the same.
-/

namespace Lob

/-- The order after a fill of `amt`. -/
def Order.take (x : Order) (amt : Qty) : Order := { x with remainingQty := x.remainingQty - amt }

/-- The order with its next hidden slice shown. -/
def Order.refill (x : Order) : Order :=
  { x with hiddenQty := x.hiddenQty - min x.displayQty x.hiddenQty
           remainingQty := min x.displayQty x.hiddenQty }

/-- The order after `configure_iceberg`. -/
def Order.configured (x : Order) (display : Qty) : Order :=
  { x with displayQty := display
           hiddenQty := if display < x.qty then x.qty - display else 0
           remainingQty := min display x.qty }

/-- The order after an in-place `modify_order`. -/
def Order.modified (x : Order) (newQty : Qty) : Order :=
  { x with qty := newQty, remainingQty := Queue.Book.modifiedRemaining x.entry newQty }

theorem Order.quiet_configured (display : Qty) : Order.Quiet fun x => x.configured display :=
  ⟨fun _ => rfl, fun _ => rfl, fun _ => ⟨rfl, rfl, rfl, rfl⟩⟩

theorem Order.quiet_modified (newQty : Qty) : Order.Quiet fun x => x.modified newQty :=
  ⟨fun _ => rfl, fun _ => rfl, fun _ => ⟨rfl, rfl, rfl, rfl⟩⟩

theorem Order.quiet_take (amt : Qty) : Order.Quiet fun x => x.take amt :=
  ⟨fun _ => rfl, fun _ => rfl, fun _ => ⟨rfl, rfl, rfl, rfl⟩⟩

theorem Order.quiet_refill : Order.Quiet Order.refill :=
  ⟨fun _ => rfl, fun _ => rfl, fun _ => ⟨rfl, rfl, rfl, rfl⟩⟩

@[simp] theorem Order.entry_take (x : Order) (amt : Qty) :
    (x.take amt).entry = x.entry.take amt := rfl

@[simp] theorem Order.entry_refill (x : Order) : x.refill.entry = x.entry.refill := rfl

theorem Memory.modify_congr {m : Memory} {o : Ptr} {f g : Order → Order} (h : f (m o) = g (m o)) :
    m.modify o f = m.modify o g := by
  funext q
  by_cases hq : q = o
  · subst hq
    rw [modify_self, modify_self, h]
  · rw [modify_of_ne hq, modify_of_ne hq]

namespace OrderBook

variable {b : OrderBook} {s : Side} {i id : Nat} {px : Int} {l l' l₁ : PriceLevel} {o : Ptr}
  {amt : Qty} {m m' : Memory}

/-- Replenishment sends the order to the tail with its next slice, when there is one. -/
theorem tryReplenishIceberg_eq : tryReplenishIceberg m l o =
    if (m o).entry.Refillable then
      some ((l.remove m o).2.pushBack ((l.remove m o).1.modify o Order.refill) o)
    else none := by
  by_cases h : (m o).displayQty = 0 ∨ (m o).hiddenQty = 0
  · have hn : ¬ (m o).entry.Refillable := fun hr => h.elim hr.1 hr.2
    rw [tryReplenishIceberg, if_pos h, if_neg hn]
  · have hr : (m o).entry.Refillable := not_or.mp h
    rw [tryReplenishIceberg, if_neg h, if_pos hr]
    exact congrArg (fun m' => some (PriceLevel.pushBack m' (l.remove m o).2 o))
      (Memory.modify_congr rfl)

/-- A replenished level is not empty. -/
theorem tryReplenishIceberg_cnt (h : tryReplenishIceberg m l o = some (m', l')) : l'.cnt ≠ 0 := by
  rw [tryReplenishIceberg_eq] at h
  split at h
  · have hc : l'.cnt = _ := (congrArg (fun r => PriceLevel.cnt r.2) (Option.some.inj h).symm).trans
      PriceLevel.pushBack_cnt
    rw [hc]
    exact Nat.succ_ne_zero _
  · contradiction

/-- What both matching paths do with order `o` once a fill is deducted in memory `m` and from
the aggregate of its level `l`: leave it, send it to the tail, or release it. -/
def settle (b : OrderBook) (s : Side) (i : Nat) (px : Int) (m : Memory) (l : PriceLevel)
    (o : Ptr) : OrderBook :=
  if (m o).remainingQty = 0 then
    match tryReplenishIceberg m l o with
    | some (m, l) => { b with mem := m }.putLevel s i px l
    | none => (({ b with mem := (l.remove m o).1 }.putLevel s i px (l.remove m o).2).dropId
        (b.mem o).orderId).deallocate o
  else { b with mem := m }.putLevel s i px l

namespace WellFormed

section Fill

variable (h : b.WellFormed) (hi : (b.ladder s)[i]? = some (px, l)) (ho : o ∈ l.orders b.mem)
include h hi ho

omit ho in
/-- No level of the book is empty. -/
theorem cnt_ne_zero : l.cnt ≠ 0 := by
  rw [(h.holds hi).cnt, ne_eq, List.length_eq_zero_iff]
  exact (h.shelved s).nonempty _ (List.mem_of_getElem? hi)

variable (hends : l'.ends = l.ends) (hcnt : l'.cnt = l.cnt)
include hends hcnt

/-- A fill that leaves something visible. -/
theorem fill_partial (hz : (b.mem o).remainingQty - amt ≠ 0) :
    Refines b ({ b with mem := b.mem.modify o fun x => x.take amt }.putLevel s i px l')
      (b.queues.put s i px ((l.view b.mem).fill (b.mem o).entry amt l'.aggQty)) := by
  have hr := h.rewrite hi ho (Order.quiet_take amt) hends hcnt
  rw [setLevel_eq_put (hcnt.trans_ne (h.cnt_ne_zero hi))] at hr
  have hz' : ((b.mem o).entry.take amt).remaining ≠ 0 := hz
  rw [Queue.Level.fill, if_neg hz']
  exact hr

/-- A fill that exhausts the visible slice and shows the next one. -/
theorem fill_replenish (hz : (b.mem o).remainingQty - amt = 0)
    (hr : tryReplenishIceberg (b.mem.modify o fun x => x.take amt) l' o = some (m, l₁)) :
    Refines b ({ b with mem := m }.putLevel s i px l₁)
      (b.queues.put s i px ((l.view b.mem).fill (b.mem o).entry amt l'.aggQty)) := by
  have hcnt₁ := tryReplenishIceberg_cnt hr
  rw [tryReplenishIceberg_eq, Memory.modify_self] at hr
  by_cases href : ((b.mem o).take amt).entry.Refillable
  · rw [if_pos href, Option.some.injEq] at hr
    have hm : l'.remove (b.mem.modify o fun x => x.take amt) o =
      ((l'.remove (b.mem.modify o fun x => x.take amt) o).1,
        (l'.remove (b.mem.modify o fun x => x.take amt) o).2) := rfl
    have hq := h.requeue hi ho (Order.quiet_take amt) Order.quiet_refill hends hcnt hm
    have hentry : ((l'.remove (b.mem.modify o fun x => x.take amt) o).1 o).refill.entry =
        ((b.mem o).entry.take amt).refill := by
      rw [Order.entry_refill, Order.entry_of_bare PriceLevel.remove_bare, Memory.modify_self,
        Order.entry_take]
    have hz' : ((b.mem o).entry.take amt).remaining = 0 := hz
    have href' : (b.mem o).entry.Refillable := href
    rw [hr, hentry, setLevel_eq_put hcnt₁] at hq
    rw [Queue.Level.fill, if_pos hz', if_pos href']
    exact hq
  · rw [if_neg href] at hr
    contradiction

/-- A fill that exhausts the order. -/
theorem fill_exhaust (hz : (b.mem o).remainingQty - amt = 0)
    (hr : tryReplenishIceberg (b.mem.modify o fun x => x.take amt) l' o = none) :
    Refines b
      ((({ b with mem := (l'.remove (b.mem.modify o fun x => x.take amt) o).1 }.putLevel s i px
        (l'.remove (b.mem.modify o fun x => x.take amt) o).2).dropId
          (b.mem o).orderId).deallocate o)
      (b.queues.put s i px ((l.view b.mem).fill (b.mem o).entry amt l'.aggQty)) := by
  rw [tryReplenishIceberg_eq, Memory.modify_self] at hr
  by_cases href : ((b.mem o).take amt).entry.Refillable
  · rw [if_pos href] at hr
    contradiction
  · have hz' : ((b.mem o).entry.take amt).remaining = 0 := hz
    have href' : ¬ (b.mem o).entry.Refillable := href
    rw [Queue.Level.fill, if_pos hz', if_neg href']
    exact h.takeOut hi ho (Order.quiet_take amt) hends hcnt

/-- A filled order is settled as its entry is. -/
theorem settle (amt : Qty) : Refines b (b.settle s i px (b.mem.modify o fun x => x.take amt) l' o)
    (b.queues.put s i px ((l.view b.mem).fill (b.mem o).entry amt l'.aggQty)) := by
  have hrem : ((b.mem.modify o fun x => x.take amt) o).remainingQty =
      (b.mem o).remainingQty - amt := by
    rw [Memory.modify_self]
    rfl
  rw [OrderBook.settle, hrem]
  split
  · next hz =>
    split
    · next hr => exact h.fill_replenish hi ho hends hcnt hz hr
    · next hr => exact h.fill_exhaust hi ho hends hcnt hz hr
  · next hz => exact h.fill_partial hi ho hends hcnt hz

end Fill

theorem stopSlot_of_resting (hf : b.findId id = some o) (hs : (b.mem o).stopType = .none) :
    b.stopSlot id = none := by
  rw [stopSlot, hf]
  exact if_pos hs

/-- Where an id that names no pending stop leads: nowhere, or to a queued order. -/
theorem lookup (h : b.WellFormed) (hid : b.stopSlot id = none) :
    b.findId id = none ∧ b.queues.locate id = none ∨
    ∃ o i l, b.findId id = some o ∧ (b.mem o).orderId = id ∧
      b.findLevel (b.mem o).side (b.mem o).price = some (i, l) ∧
      (b.ladder (b.mem o).side)[i]? = some ((b.mem o).price, l) ∧ o ∈ l.orders b.mem ∧
      b.queues.locate id =
        some ⟨(b.mem o).side, i, (b.mem o).price, l.view b.mem, (b.mem o).entry⟩ := by
  cases hf : b.findId id with
  | none =>
    refine Or.inl ⟨rfl, (Queue.Book.locate_eq_none h.distinct).mpr ?_⟩
    intro S hS
    obtain ⟨_, p, _, _, hp, _⟩ := h.level_of_at hS
    rw [hf] at hp
    contradiction
  | some o =>
    have hs : (b.mem o).stopType = .none := by
      by_contra hs
      have hsome := stopSlot_eq_some.mpr ⟨hf, hs, rfl⟩
      rw [hid] at hsome
      contradiction
    obtain ⟨i, l, hl, hi, ho⟩ := h.findLevel_of_on (h.resting id o hf hs)
    have hat := at_of_level hi ho
    have horder := (h.table id o hf).1
    rw [horder] at hat
    exact Or.inr ⟨o, i, l, rfl, horder, hl, hi, ho, Queue.Book.locate_of_at h.distinct hat⟩

/-- Where a mapped id that names no pending stop leads. -/
theorem lookup_some (h : b.WellFormed) (hid : b.stopSlot id = none) (hf : b.findId id = some o) :
    ∃ i l, (b.mem o).orderId = id ∧
      b.findLevel (b.mem o).side (b.mem o).price = some (i, l) ∧
      (b.ladder (b.mem o).side)[i]? = some ((b.mem o).price, l) ∧ o ∈ l.orders b.mem ∧
      b.queues.locate id =
        some ⟨(b.mem o).side, i, (b.mem o).price, l.view b.mem, (b.mem o).entry⟩ := by
  rcases h.lookup hid with ⟨hn, _⟩ | ⟨p, i, l, hp, hplace⟩
  · rw [hf] at hn
    contradiction
  · obtain rfl : o = p := Option.some.inj (hf.symm.trans hp)
    exact ⟨i, l, hplace⟩

end WellFormed

theorem findLevel_withMem (m : Memory) (s : Side) (px : Int) :
    { b with mem := m }.findLevel s px = b.findLevel s px := by
  rw [findLevel, findLevel, ladder_withMem]

/-- Erasing the level just written, by its price. -/
theorem erasePrice_setLevel (hs : Ladder.Sorted s.cmp (b.ladder s))
    (hi : (b.ladder s)[i]? = some (px, l)) :
    (b.setLevel s i px l').erasePrice s px = (b.setLevel s i px l').eraseLevel s i := by
  obtain ⟨hlt, _⟩ := List.getElem?_eq_some_iff.mp hi
  have he : Ladder.eraseKey s.cmp px ((b.ladder s).set i (px, l')) =
      ((b.ladder s).set i (px, l')).eraseIdx i :=
    (hs.set hi).eraseKey_eq s.cmp_strict (List.getElem?_set_self hlt)
  rw [erasePrice, eraseLevel, setLevel, ladder_setLadder_self, he]

/-- `apply_fill` when a level stands at the price of the order. -/
theorem applyFill_eq (h : b.WellFormed) (hf : b.findId id = some o) {qty : Qty}
    (hl : b.findLevel (b.mem o).side (b.mem o).price = some (i, l)) :
    b.applyFill id qty = (min qty (b.mem o).remainingQty,
      b.settle (b.mem o).side i (b.mem o).price
        (b.mem.modify o fun x => x.take (min qty (b.mem o).remainingQty))
        (l.adjustAggregate (-(min qty (b.mem o).remainingQty).toInt64)) o) := by
  have hid : (b.mem o).orderId = id := (h.table id o hf).1
  have hsorted := (h.shelved (b.mem o).side).sorted
  have hi := h.findLevel_eq_some.mp hl
  have hcnt := h.cnt_ne_zero hi
  generalize hamt : min qty (b.mem o).remainingQty = amt
  have hwrite : (b.writeOrder o fun x => { x with remainingQty := x.remainingQty - amt }) =
      { b with mem := b.mem.modify o fun x => x.take amt } := rfl
  have hside : ((b.mem o).take amt).side = (b.mem o).side := rfl
  have hprice : ((b.mem o).take amt).price = (b.mem o).price := rfl
  simp only [applyFill, hf, hamt, hwrite, Memory.modify_self, hside, hprice, findLevel_withMem, hl,
    settle, hid]
  split
  · next hz =>
    cases hr : tryReplenishIceberg (b.mem.modify o fun x => x.take amt)
        (l.adjustAggregate (-amt.toInt64)) o with
    | some r =>
      simp only [setLevel_eq_put (tryReplenishIceberg_cnt hr)]
    | none =>
      simp only [← eraseLevel_eq_put]
      rw [erasePrice_setLevel (b := { b with mem := _ }) (by simpa using hsorted)
        (by simpa using hi)]
  · rw [setLevel_eq_put (l := l.adjustAggregate _) hcnt]

/-- `configure_iceberg` when a level stands at the price of the order. -/
theorem configureIceberg_eq (hf : b.findId id = some o) {display : Qty} (hd : display ≠ 0)
    (hl : b.findLevel (b.mem o).side (b.mem o).price = some (i, l)) :
    b.configureIceberg id display = (true,
      { b with mem := b.mem.modify o fun x => x.configured display }.setLevel (b.mem o).side i
        (b.mem o).price (l.adjustAggregate
          ((min display (b.mem o).qty).toInt64 - (b.mem o).remainingQty.toInt64))) := by
  have hwrite : (b.writeOrder o fun x =>
      { x with displayQty := display
               hiddenQty := if display < x.qty then x.qty - display else 0
               remainingQty := min display x.qty }) =
      { b with mem := b.mem.modify o fun x => x.configured display } := rfl
  have hside : ((b.mem o).configured display).side = (b.mem o).side := rfl
  have hprice : ((b.mem o).configured display).price = (b.mem o).price := rfl
  have hrem : ((b.mem o).configured display).remainingQty = min display (b.mem o).qty := rfl
  simp only [configureIceberg, hf, if_neg hd, hwrite, Memory.modify_self, hside, hprice, hrem,
    findLevel_withMem, hl]

namespace WellFormed

variable (h : b.WellFormed)
include h

/-- `apply_fill` fills one entry of the queues. -/
theorem applyFill (hid : b.stopSlot id = none) (qty : Qty) :
    (b.applyFill id qty).1 = (b.queues.applyFill id qty).1 ∧
      Refines b (b.applyFill id qty).2 (b.queues.applyFill id qty).2 := by
  rcases h.lookup hid with ⟨hf, hloc⟩ | ⟨o, i, l, hf, horder, hl, hi, ho, hloc⟩
  · rw [OrderBook.applyFill, hf, Queue.Book.applyFill, hloc]
    exact ⟨rfl, Refines.refl h⟩
  · rw [Queue.Book.applyFill, hloc, applyFill_eq h hf hl]
    have hends (d : Int64) : (l.adjustAggregate d).ends = l.ends := rfl
    exact ⟨rfl, h.settle hi ho (hends _) rfl _⟩

/-- `configure_iceberg` rewrites one entry of the queues. -/
theorem configureIceberg (hid : b.stopSlot id = none) (display : Qty) :
    Refines b (b.configureIceberg id display).2 (b.queues.configure id display) := by
  rcases h.lookup hid with ⟨hf, hloc⟩ | ⟨o, i, l, hf, _, hl, hi, ho, hloc⟩
  · rw [OrderBook.configureIceberg, hf, Queue.Book.configure, hloc]
    exact Refines.refl h
  · rw [Queue.Book.configure, hloc]
    by_cases hd : display = 0
    · simp only [OrderBook.configureIceberg, hf, if_pos hd]
      exact Refines.refl h
    · have hends (d : Int64) : (l.adjustAggregate d).ends = l.ends := rfl
      rw [configureIceberg_eq hf hd hl]
      simp only [if_neg hd]
      exact h.rewrite hi ho (Order.quiet_configured display) (hends _) rfl

/-- `modify_order` at the same price rewrites one entry of the queues. -/
theorem modifyOrder_samePrice (hf : b.findId id = some o) (hs : (b.mem o).stopType = .none)
    (newQty : Qty) :
    Refines b (b.modifyOrder id (b.mem o).price newQty).2
      (b.queues.modify id (b.mem o).price newQty) := by
  have hid : b.stopSlot id = none := stopSlot_of_resting hf hs
  obtain ⟨i, l, _, hl, hi, ho, hloc⟩ := h.lookup_some hid hf
  rw [Queue.Book.modify, hloc]
  simp only [OrderBook.modifyOrder, hf, hl, if_true]
  have hends (d : Int64) : (l.adjustAggregate d).ends = l.ends := rfl
  have hr := h.rewrite hi ho (Order.quiet_modified newQty) (hends
    (((b.mem o).modified newQty).remainingQty.toInt64 - (b.mem o).remainingQty.toInt64)) rfl
  rw [Memory.modify_congr (g := fun x => { x with qty := newQty, remainingQty := _ }) rfl] at hr
  exact hr

/-- `cancel_order` takes one entry out of the queues. -/
theorem cancelOrder (hid : b.stopSlot id = none) :
    ((b.cancelOrder id).1 = (b.findId id).isSome) ∧
      Refines b (b.cancelOrder id).2 (b.queues.cancel id) := by
  rcases h.lookup hid with ⟨hf, hloc⟩ | ⟨o, i, l, hf, horder, hl, hi, ho, hloc⟩
  · rw [OrderBook.cancelOrder, hf, Queue.Book.cancel, hloc]
    exact ⟨rfl, Refines.refl h⟩
  · rw [Queue.Book.cancel, hloc]
    simp only [OrderBook.cancelOrder, hf, hl, eraseLevel_eq_put]
    have hends : l.ends = l.ends := rfl
    have ht := h.takeOut hi ho Order.quiet_id hends rfl
    rw [Memory.modify_id, horder] at ht
    exact ⟨rfl, ht⟩

/-- The queues are well formed without any one entry. -/
theorem ordered_cancel (hid : b.stopSlot id = none) : (b.queues.cancel id).Ordered := by
  have hc := (h.cancelOrder hid).2
  rw [← hc.queues]
  exact hc.wf.ordered

end WellFormed

end OrderBook

end Lob
