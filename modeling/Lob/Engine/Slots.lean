import Lob.Engine.Activation
import Lob.Resting.Consistency

/-!
# The slots of the pool

Over runs with stops, each slot of a pool is free, holds one resting order, or holds
one stop that has not been activated. Activating a stop frees its slot before the
order it stands for asks for one.
-/

namespace Lob

namespace OrderBook

variable {b : OrderBook} {o : Ptr} {id : Nat}

/-- The slots of the registered stops, in the order of their ids. -/
def stopSlots (b : OrderBook) : List Ptr :=
  (List.range b.nextOrderId).filterMap fun id => (b.stopSlot id).map Prod.fst

namespace WellFormed

variable (h : b.WellFormed)
include h

/-- The slots listed are those of the pending stops. -/
theorem mem_stopSlots : o ∈ b.stopSlots ↔ ∃ id x, b.stopSlot id = some (o, x) := by
  simp only [stopSlots, List.mem_filterMap, List.mem_range, Option.map_eq_some_iff, Prod.exists]
  constructor
  · rintro ⟨id, _, p, x, hx, rfl⟩
    exact ⟨id, x, hx⟩
  · rintro ⟨id, x, hx⟩
    exact ⟨id, h.id_lt (stopSlot_eq_some.mp hx).1, o, x, hx, rfl⟩

/-- No two stops share a slot. -/
theorem nodup_stopSlots : b.stopSlots.Nodup := by
  refine List.Nodup.filterMap ?_ List.nodup_range
  intro i j o hi hj
  simp only [Option.mem_def, Option.map_eq_some_iff, Prod.exists] at hi hj
  obtain ⟨p, x, hx, rfl⟩ := hi
  obtain ⟨q, y, hy, rfl⟩ := hj
  exact (MatchingEngine.stopSlot_inj h hx hy).1

/-- A mapped slot holds a resting order or a registered stop. -/
theorem findId_iff : b.findId id = some o ↔
    ((∃ s px, b.On s px o) ∧ (b.mem o).orderId = id) ∨ ∃ x, b.stopSlot id = some (o, x) := by
  constructor
  · intro hf
    by_cases hs : (b.mem o).stopType = .none
    · exact Or.inl ⟨⟨_, _, h.resting id o hf hs⟩, (h.table id o hf).1⟩
    · exact Or.inr ⟨_, stopSlot_eq_some.mpr ⟨hf, hs, rfl⟩⟩
  · rintro (⟨⟨s, px, ho⟩, rfl⟩ | ⟨x, hx⟩)
    · exact h.mapped s px o ho
    · exact (stopSlot_eq_some.mp hx).1

/-- Free, resting and stop slots make up a pool. -/
theorem allotment (hm : b.pool.mode = .pool) :
    (b.pool.freelist ++ (b.restingSlots ++ b.stopSlots)).Perm (List.range b.pool.capacity) := by
  have hlive (q : Ptr) : b.Live q ↔ q ∈ b.restingSlots ++ b.stopSlots := by
    rw [List.mem_append, mem_restingSlots, h.mem_stopSlots]
    constructor
    · rintro ⟨id, hf⟩
      exact (h.findId_iff.mp hf).imp And.left fun hx => ⟨id, hx⟩
    · rintro (ho | ⟨id, x, hx⟩)
      · exact ⟨_, h.findId_iff.mpr (Or.inl ⟨ho, rfl⟩)⟩
      · exact ⟨id, (stopSlot_eq_some.mp hx).1⟩
  refine (List.perm_ext_iff_of_nodup ?_ List.nodup_range).mpr fun q => ?_
  · refine List.nodup_append.mpr ⟨h.pool.nodup,
      List.nodup_append.mpr ⟨h.nodup_restingSlots, h.nodup_stopSlots, ?_⟩, ?_⟩
    · rintro q hq r hr rfl
      obtain ⟨s, px, ho⟩ := mem_restingSlots.mp hq
      obtain ⟨id, x, hx⟩ := h.mem_stopSlots.mp hr
      exact (stopSlot_eq_some.mp hx).2.1 (h.placed ho).2.2
    · rintro q hf r hr rfl
      exact h.pool.free q hf ((hlive q).mpr hr)
  · rw [List.mem_append, List.mem_range, h.pool.slots hm, hlive]

end WellFormed

end OrderBook

namespace Config

open MatchingEngine

variable {c c' : Config} {e : MatchingEngine} {side : Side} {qty : Qty} {K : List Task}

/-- Two books share the size and the mode of their pools. -/
def SamePool (b b' : OrderBook) : Prop :=
  b'.pool.capacity = b.pool.capacity ∧ b'.pool.mode = b.pool.mode

/-- The pool is the same after both. -/
theorem SamePool.trans {b b' b'' : OrderBook} (h : SamePool b b') (h' : SamePool b' b'') :
    SamePool b b'' :=
  ⟨h'.1.trans h.1, h'.2.trans h.2⟩

/-- A refined step keeps the pool's capacity and mode. -/
theorem samePool_of_refines {b b' : OrderBook} {B : Queue.Book} (h : OrderBook.Refines b b' B) :
    SamePool b b' :=
  ⟨h.capacity, h.mode⟩

/-- Launching an order keeps them. -/
theorem samePool_launch (hw : e.book.WellFormed) :
    SamePool e.book (launch e side qty K).engine.book := by
  have hm := samePool_of_refines (matched_refines hw side qty)
  rw [launch]
  split <;> exact hm

/-- Every step of a cascade keeps them. -/
theorem Step.samePool (h : Step c c') (hc : c.Sound) :
    SamePool c.engine.book c'.engine.book := by
  obtain ⟨hw, hst⟩ := hc
  have hfire {e : MatchingEngine} {id : Nat} {o : Ptr} {x : Order} {t : Task}
      (hst : e.book.pendingStopStorage = []) (hx : e.book.stopSlot id = some (o, x)) :
      SamePool e.book (e.fire id o t.last t.pass).book := by
    have hpool : (e.fire id o t.last t.pass).book.pool = e.book.pool.deallocate o :=
      (OrderBook.detach_frame hx hst).2.2.1
    rw [SamePool, hpool]
    exact OrderPool.deallocate_capacity
  cases h with
  | stale e t K hnone =>
    rw [book_stale]
    exact ⟨rfl, rfl⟩
  | requeue e t K id x hx ht => exact ⟨rfl, rfl⟩
  | market e t K id x hx ht hs =>
    exact (hfire hst hx).trans (samePool_launch (fire_wellFormed hw hst hx))
  | limit e t K id x hx ht hs =>
    have hfired : (e.fire id t.slot t.last t.pass).book.WellFormed := fire_wellFormed hw hst hx
    exact (hfire hst hx).trans
      (samePool_of_refines (submitLimit_refines hfired x.side x.price x.qty x.displayQty).2)

end Config

namespace MatchingEngine

open Config

/-- A stop has been accepted and not been activated. -/
def Waiting (log : List Event) (id : Nat) : Prop :=
  id ≠ 0 ∧ (∃ side stopPrice qty stopType limitPrice display,
    .stop id side stopPrice qty stopType limitPrice display ∈ log) ∧
    ∀ a ∈ log.filterMap Event.activation, a.id ≠ id

/-- The slots, the ids and the stops of an engine between calls. -/
structure Allotted (capacity : Nat) (e : MatchingEngine) : Prop where
  slots : (e.book.pool.freelist ++ (e.book.restingSlots ++ e.book.stopSlots)).Perm
    (List.range capacity)
  ids : ∀ id o, e.book.findId id = some o ↔
    ((∃ s px, e.book.On s px o) ∧ (e.book.mem o).orderId = id) ∨
      ∃ x, e.book.stopSlot id = some (o, x)
  stops : ∀ id, (∃ r, e.book.stopSlot id = some r) ↔ Waiting e.log id
  /-- The order of an activated stop-limit is accepted. -/
  placed : ∀ k a, e.log[k]?.bind Event.activation = some a → ∃ i x, i < k ∧
    e.log[i]? = some (.submission a.id x) ∧ (x.stopType = .stopLimit → ∃ id, id ≠ 0 ∧
      e.log[k + 1]? = some (.limit id x.side x.price x.qty x.displayQty))

variable {e : MatchingEngine} {capacity : Nat} {mode : AllocMode} {policy : MatchingPolicy}

/-- Every call keeps them. -/
theorem Settled.samePool (h : e.Settled) (a : Call) (ha : e.Admissible a) :
    SamePool e.book (e.apply a).book := by
  have hw := h.wf
  cases a with
  | limit side price qty display =>
    exact samePool_of_refines (submitLimit_refines hw side price qty display).2
  | market side qty =>
    exact Steps.of_launch (I := fun c => SamePool e.book c.engine.book) hw
      (h.market_steps side qty).1 (samePool_launch hw)
      fun c c' _ hc hi hs => hi.trans (hs.samePool hc)
  | stop side stopPrice qty stopType limitPrice display =>
    rw [MatchingEngine.apply]
    cases hal : e.book.pool.allocate with
    | none =>
      rw [submitStop_full hal]
      exact ⟨rfl, rfl⟩
    | some r =>
      rw [submitStop_eq hal hw ha, book_record, OrderBook.addPendingStop_eq (o := r.1) hal]
      exact OrderPool.allocate_capacity (o := r.1) hal
  | cancel id => exact samePool_of_refines (cancelOrder_refines hw ha)

/-- The pool is partitioned between any two calls. -/
theorem reachable_allotted (h : Reachable capacity .pool policy e) : Allotted capacity e := by
  have hs := h.settled
  have hl := h.logged
  have hpool : e.book.pool.capacity = capacity ∧ e.book.pool.mode = .pool := by
    refine Reachable.invariant (I := fun e => e.book.pool.capacity = capacity ∧
      e.book.pool.mode = .pool) h ⟨rfl, rfl⟩ ?_
    intro s a hs hi ha
    have hp := hs.samePool a ha
    exact ⟨hp.1.trans hi.1, hp.2.trans hi.2⟩
  constructor
  · rw [← hpool.1]
    exact hs.wf.allotment hpool.2
  · exact fun id o => hs.wf.findId_iff
  · intro id
    constructor
    · rintro ⟨⟨o, x⟩, hx⟩
      obtain ⟨i, hi, _⟩ := hl.registered id o x hx
      have hpos := (hs.wf.table id o (OrderBook.stopSlot_eq_some.mp hx).1).2
      refine ⟨Nat.ne_of_gt hpos, ⟨_, _, _, _, _, _, List.mem_of_getElem? hi⟩, ?_⟩
      rintro a ha rfl
      have hnone := (hl.spent a ha).1
      rw [hx] at hnone
      contradiction
    · rintro ⟨hid, ⟨_, _, _, _, _, _, hmem⟩, hact⟩
      rcases hl.kept _ _ _ _ _ _ _ hmem hid with ⟨a, ha, he⟩ | ⟨o, x, hx, _⟩
      · exact absurd he (hact a ha)
      · exact ⟨_, hx⟩
  · intro k a hk
    obtain ⟨i, j, x, hij, hjk, _, hi, _, _, b, hb, he⟩ := hl.explained k a hk
    refine ⟨i, x, Nat.lt_trans hij hjk, hi, fun htype => ?_⟩
    cases b with
    | limit id side price qty display =>
      obtain ⟨_, hid, rfl, rfl, rfl, rfl⟩ := he
      exact ⟨id, hid, hb⟩
    | market side qty fills => exact StopType.noConfusion (htype.symm.trans he.1)
    | stop | cancel | trigger | staleRead => exact he.elim

/-- A full pool in which a stop-limit order takes over the slot of its stop. -/
def poolFull : List Call :=
  [.limit .sell 100 2 0, .stop .buy 100 3 .stopLimit 50 1, .stop .buy 200 1 .stopMarket 0 0,
    .limit .sell 101 1 0, .market .buy 1, .cancel 1]

/-- A pool of three slots, after a refusal, a trade that activates a stop and a cancel. -/
theorem reachable_allotted_full :
    Allotted 3 (poolFull.foldl apply (new (OrderBook.new 3) .fifoStack)) :=
  reachable_allotted (Run.Reach.foldl Run.Reach.init (by decide +kernel))

end MatchingEngine

end Lob
