import Lob.Representation.Matching

/-!
# What matching leaves untouched

Settling a filled order writes its own level and the orders queued there. The
loop of `market_order` therefore leaves the other side, the worse levels and
the orders on them as they are.
-/

namespace Lob.OrderBook

variable {b : OrderBook} {s t : Side} {i : Nat} {px : Int} {l l' : PriceLevel} {o p : Ptr}
  {m : Memory} {amt : Qty} {w : Sweep} {rest : PriceLadder}

/-- Writing a level back writes no slot. -/
theorem mem_putLevel : ({ b with mem := m }.putLevel s i px l).mem = m := mem_setLadder _

/-- The ladder that is written. -/
theorem ladder_putLevel_self :
    ({ b with mem := m }.putLevel s i px l).ladder s = putLadder (b.ladder s) i px l := by
  rw [putLevel, ladder_setLadder_self, ladder_withMem]

/-- The ladder of the other side. -/
theorem ladder_putLevel_of_ne (ht : t ≠ s) :
    ({ b with mem := m }.putLevel s i px l).ladder t = b.ladder t := by
  rw [putLevel, ladder_setLadder_of_ne _ ht, ladder_withMem]

/-- The three outcomes of settling an order write one level of one ladder. -/
theorem settle_ladder (b : OrderBook) (s : Side) (i : Nat) (px : Int) (m : Memory)
    (l : PriceLevel) (o : Ptr) :
    (∃ l', (b.settle s i px m l o).ladder s = putLadder (b.ladder s) i px l') ∧
      ∀ t, t ≠ s → (b.settle s i px m l o).ladder t = b.ladder t := by
  rw [settle]
  split
  · split
    · next l' _ => exact ⟨⟨l', ladder_putLevel_self⟩, fun t ht => ladder_putLevel_of_ne ht⟩
    · refine ⟨⟨(l.remove m o).2, ?_⟩, fun t ht => ?_⟩
      · rw [ladder_deallocate, ladder_dropId, ladder_putLevel_self]
      · rw [ladder_deallocate, ladder_dropId, ladder_putLevel_of_ne ht]
  · exact ⟨⟨l, ladder_putLevel_self⟩, fun t ht => ladder_putLevel_of_ne ht⟩

/-- Settling an order uses no id. -/
theorem settle_nextOrderId : (b.settle s i px m l o).nextOrderId = b.nextOrderId := by
  rw [settle]
  split
  · split
    · exact nextOrderId_setLadder _
    · exact nextOrderId_dropId.trans (nextOrderId_setLadder _)
  · exact nextOrderId_setLadder _

namespace WellFormed

/-- Settling a filled order writes to the orders of its level only. -/
theorem settle_frame (h : b.WellFormed) (hi : (b.ladder s)[i]? = some (px, l))
    (ho : o ∈ l.orders b.mem) (hends : l'.ends = l.ends) (hcnt : l'.cnt = l.cnt)
    (hp : p ∉ l.orders b.mem) :
    (b.settle s i px (b.mem.modify o fun x => x.take amt) l' o).mem p = b.mem p := by
  have hl : l'.Holds (b.mem.modify o fun x => x.take amt) (l.orders b.mem) :=
    (h.holds hi).quiet (Order.quiet_take amt) hends hcnt
  have hpo : p ≠ o := by
    rintro rfl
    exact hp ho
  have hwrite : (b.mem.modify o fun x => x.take amt) p = b.mem p := Memory.modify_of_ne hpo
  obtain ⟨ys, zs, hsplit⟩ := List.append_of_mem ho
  rw [hsplit] at hl hp
  have hremove := (hl.remove_frame hp).trans hwrite
  rw [OrderBook.settle]
  split
  · cases hr : tryReplenishIceberg (b.mem.modify o fun x => x.take amt) l' o with
    | some r =>
      rw [tryReplenishIceberg_eq] at hr
      split at hr
      · have hpush := Option.some.inj hr
        have hrest := hl.remove.quiet Order.quiet_refill rfl rfl (o := o)
        have hpr : p ∉ ys ++ zs := fun hmem => hp (by simp at hmem ⊢; tauto)
        simp only [mem_putLevel]
        rw [← hpush, hrest.pushBack_frame hpr hpo, Memory.modify_of_ne hpo, hremove]
      · contradiction
    | none =>
      have hmem : ((({ b with mem := (l'.remove (b.mem.modify o fun x => x.take amt) o).1 }.putLevel
          s i px (l'.remove (b.mem.modify o fun x => x.take amt) o).2).dropId
            (b.mem o).orderId).deallocate o).mem =
          (l'.remove (b.mem.modify o fun x => x.take amt) o).1 := mem_dropId.trans mem_putLevel
      simp only [hmem]
      exact hremove
  · rw [mem_putLevel, hwrite]

end WellFormed

/-- What an iteration of the loop does to the book, the fill of the best level apart. -/
structure SweepsHead (s : Side) (w w' : Sweep) (px : Int) (l : PriceLevel) (rest : PriceLadder) :
    Prop where
  fills : ∃ cur, cur ∈ l.orders w.book.mem ∧ w'.fills =
    w.fills ++ [⟨(w.book.mem cur).orderId, px, min w.toFill (w.book.mem cur).remainingQty⟩]
  /-- The level is rewritten or, having run empty, erased. -/
  ladder : w'.book.ladder s = rest ∨ ∃ l', w'.book.ladder s = (px, l') :: rest
  other : ∀ t, t ≠ s → w'.book.ladder t = w.book.ladder t
  frame : ∀ p, p ∉ l.orders w.book.mem → w'.book.mem p = w.book.mem p
  next : w'.book.nextOrderId = w.book.nextOrderId

/-- An iteration fills the head of the best level. -/
theorem WellFormed.sweepsHead (h : w.book.WellFormed) (hv : w.book.ladder s = (px, l) :: rest) :
    SweepsHead s w (OrderBook.sweepStep s w) px l rest := by
  obtain ⟨cur, hcur⟩ := h.atHead hv
  rw [sweepStep_cons hv hcur.head hcur.price]
  obtain ⟨⟨l', hself⟩, hother⟩ := w.book.settle_ladder s 0 px
    (w.book.mem.modify cur fun x => x.take (min w.toFill (w.book.mem cur).remainingQty))
    (l.decreaseAggregate (min w.toFill (w.book.mem cur).remainingQty)) cur
  refine ⟨⟨cur, hcur.mem, rfl⟩, ?_, hother,
    fun p hp => h.settle_frame hcur.level hcur.mem rfl rfl hp, settle_nextOrderId⟩
  rw [hself, putLadder, hv]
  split
  · exact Or.inl rfl
  · exact Or.inr ⟨l', rfl⟩

end Lob.OrderBook
