import Lob.Representation.Edit

/-!
# Detaching a stop

`process_triggers` empties the book's list before it detaches a triggered stop, so
the stop is found in the id table. Its id is unmapped and its slot freed; the
resting orders and the other stops stay.
-/

namespace Lob.OrderBook

variable {b : OrderBook} {id : Nat} {o : Ptr} {x : Order} (h : b.WellFormed)
  (hx : b.stopSlot id = some (o, x)) (hst : b.pendingStopStorage = [])
include hx hst

/-- With the book's list empty, `detach_pending` finds a registered stop in the id table. -/
theorem detachPending_eq : b.detachPending id = (some o, b.dropId id) := by
  have hf := (stopSlot_eq_some.mp hx).1
  have hb : { b with pendingStopStorage := [] } = b := by
    rw [← hst]
  simp only [detachPending, hst, List.find?_nil, List.eraseP_nil, hb, hf, Option.none_or]

include h

/-- Detaching and freeing a registered stop unmaps its id and frees its slot. -/
theorem detach_shrinks : Shrinks b ((b.detachPending id).2.freeOrder (some o)) fun p => p = o := by
  obtain ⟨hf, hs, _⟩ := stopSlot_eq_some.mp hx
  rw [detachPending_eq hx hst, freeOrder]
  have hmem : ((b.dropId id).deallocate o).mem = b.mem := mem_dropId
  have hladder (t : Side) : ((b.dropId id).deallocate o).ladder t = b.ladder t := by
    rw [ladder_deallocate, ladder_dropId]
  constructor
  · intro p
    rw [hmem]
    exact ⟨rfl, rfl, rfl, rfl⟩
  · intro t
    rw [hmem, hladder]
    exact h.shelved t
  · intro t k p
    rw [On, hmem, hladder]
    constructor
    · intro hon
      refine ⟨hon, ?_⟩
      rintro rfl
      exact hs (h.placed hon).2.2
    · exact fun hon => hon.1
  · intro j p
    rw [findId_deallocate, findId_dropId]
    constructor
    · intro hj
      split at hj
      · contradiction
      · next hne =>
        refine ⟨hj, ?_⟩
        rintro rfl
        exact hne ((h.table j p hj).1.symm.trans (h.table id p hf).1)
    · rintro ⟨hj, hne⟩
      rw [if_neg, hj]
      rintro rfl
      exact hne (Option.some.inj (hj.symm.trans hf))
  · intro j p _ _
    rw [hmem]
  · exact nextOrderId_dropId
  · change (b.dropId id).pool.deallocate o |>.Owns _
    rw [pool_dropId]
    exact h.pool.deallocate ⟨id, hf⟩

/-- The other stops stay registered. -/
theorem detach_stopSlot : ((b.detachPending id).2.freeOrder (some o)).stopSlot =
    fun j => if j = id then none else b.stopSlot j := by
  obtain ⟨hf, hs, _⟩ := stopSlot_eq_some.mp hx
  have hb := detach_shrinks h hx hst
  funext j
  apply Option.ext
  rintro ⟨p, y⟩
  have hmem : ((b.detachPending id).2.freeOrder (some o)).mem = b.mem := by
    rw [detachPending_eq hx hst]
    exact mem_dropId
  rw [stopSlot_eq_some, hb.find, hmem]
  by_cases hj : j = id
  · subst hj
    rw [if_pos rfl]
    simp only [reduceCtorEq, iff_false]
    rintro ⟨⟨hp, hne⟩, _⟩
    exact hne (Option.some.inj (hp.symm.trans hf))
  · rw [if_neg hj, stopSlot_eq_some]
    constructor
    · rintro ⟨⟨hp, _⟩, hrest⟩
      exact ⟨hp, hrest⟩
    · rintro ⟨hp, hrest⟩
      refine ⟨⟨hp, ?_⟩, hrest⟩
      rintro rfl
      exact hj ((h.table j p hp).1.symm.trans (h.table id p hf).1)

omit h in
/-- The resting orders, the book's list and the memory stay. -/
theorem detach_frame : ((b.detachPending id).2.freeOrder (some o)).queues = b.queues ∧
    ((b.detachPending id).2.freeOrder (some o)).pendingStopStorage = b.pendingStopStorage ∧
    ((b.detachPending id).2.freeOrder (some o)).pool = b.pool.deallocate o ∧
    ((b.detachPending id).2.freeOrder (some o)).mem = b.mem := by
  rw [detachPending_eq hx hst, freeOrder]
  refine ⟨?_, pendingStopStorage_dropId, congrArg (OrderPool.deallocate · o) pool_dropId,
    mem_dropId⟩
  have hbuy : (b.dropId id).ladder .buy = b.ladder .buy := ladder_dropId
  have hsell : (b.dropId id).ladder .sell = b.ladder .sell := ladder_dropId
  simp only [ladder] at hbuy hsell
  simp only [queues, deallocate, mem_dropId, nextOrderId_dropId, hbuy, hsell]

end Lob.OrderBook
