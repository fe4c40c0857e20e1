import Lob.Queue.Conservation
import Lob.Resting.Cancellation
import Lob.Resting.Consistency
import Lob.Resting.Priority

/-!
# Ids and exhaustion

What ids stand for over the life of a stop-free pool book: an id is handed out
once, names one order while it rests, and nothing after it has left. The pool
refuses an order exactly when all its slots hold one.
-/

namespace Lob

/-- A fill that takes all an order shows when it has no next slice. -/
def FillStep.Exhausts (t : FillStep) : Prop :=
  ∃ o, t.before.findId t.id = some o ∧ (t.before.mem o).remainingQty ≤ t.amt ∧ ¬ t.Replenishes

namespace OrderBook

/-- The ids of the queued orders. -/
def restingIds (b : OrderBook) : List Nat := b.restingSlots.map fun p => (b.mem p).orderId

/-- The entries at a price, first in line first. -/
def entriesAt (b : OrderBook) (s : Side) (px : Int) : List Queue.Entry :=
  (b.getLevelOrders s px).map fun p => (b.mem p).entry

/-- The id an addition returns, unless it is refused. -/
def returnedBy (b : OrderBook) : Op → List Nat
  | .add side price qty =>
    let id := (b.addLimitOrder side price qty).1
    if id = 0 then [] else [id]
  | _ => []

/-- The ids an operation takes from `next_order_id_`. -/
def issuedBy (b : OrderBook) (op : Op) : List Nat :=
  List.range' b.nextOrderId ((b.apply op).nextOrderId - b.nextOrderId)

/-- Every call with this id fails and changes nothing. -/
structure Rejects (b : OrderBook) (id : Nat) : Prop where
  cancel : b.cancelOrder id = (false, b)
  modify : ∀ newPrice newQty, b.modifyOrder id newPrice newQty = (false, b)
  configure : ∀ display, b.configureIceberg id display = (false, b)
  fill : ∀ qty, b.applyFill id qty = (0, b)

end OrderBook

open OrderBook

/-- A book with the ids its calls have returned, issued and retired. -/
structure Session where
  book : OrderBook
  returned : List Nat
  issued : List Nat
  /-- The ids of the orders that no longer rest. -/
  gone : List Nat

namespace Session

def new (capacity : Nat) : Session := ⟨.new capacity .pool, [], [], []⟩

/-- The session after a call. -/
def step (s : Session) (op : Op) : Session where
  book := s.book.apply op
  returned := s.returned ++ s.book.returnedBy op
  issued := s.issued ++ s.book.issuedBy op
  gone := s.gone ++ s.book.restingIds.filter fun id => id ∉ (s.book.apply op).restingIds

/-- The states of stop-free runs of a pool book. -/
def Reachable (capacity : Nat) : Session → Prop :=
  Run.Reach step (fun _ _ => True) (new capacity)

/-- An order at another price takes the place of a modified one. -/
structure Replaced (s : Session) (id : Nat) (o : Ptr) (newPrice : Int) (newQty : Qty) : Prop where
  accepted : (s.book.modifyOrder id newPrice newQty).1 = true
  gone : id ∈ (s.step (.modify id newPrice newQty)).gone
  /-- The id of the replacement has not been used. -/
  fresh : s.book.issuedBy (.modify id newPrice newQty) = [s.book.nextOrderId] ∧
    s.book.nextOrderId ∉ s.issued
  /-- The replacement stands last. -/
  last : (s.step (.modify id newPrice newQty)).book.entriesAt (s.book.mem o).side newPrice =
    s.book.entriesAt (s.book.mem o).side newPrice ++
      [⟨s.book.nextOrderId, newQty, newQty, 0, 0⟩]
  /-- The order is taken out of the queue it stood in, and no other order is touched. -/
  out : (s.book.mem o).entry ∈ s.book.entriesAt (s.book.mem o).side (s.book.mem o).price ∧
    (s.step (.modify id newPrice newQty)).book.entriesAt (s.book.mem o).side
        (s.book.mem o).price =
      (s.book.entriesAt (s.book.mem o).side (s.book.mem o).price).filter fun e => e.id ≠ id
  others : ∀ side px, ¬ (side = (s.book.mem o).side ∧ px = newPrice) →
    ¬ (side = (s.book.mem o).side ∧ px = (s.book.mem o).price) →
    (s.step (.modify id newPrice newQty)).book.entriesAt side px = s.book.entriesAt side px

/-- What ids and slots do for every further call. -/
structure Accountable (capacity : Nat) (s : Session) : Prop where
  /-- An addition is refused iff every slot holds an order. -/
  full_iff : ∀ side price qty, (s.book.addLimitOrder side price qty).1 = 0 ↔
    s.book.restingSlots.length = capacity
  refused : ∀ side price qty, (s.book.addLimitOrder side price qty).1 = 0 →
    (s.book.addLimitOrder side price qty).2 = s.book
  increasing : ∀ side price qty, (s.book.addLimitOrder side price qty).1 ≠ 0 →
    ∀ id ∈ s.returned, id < (s.book.addLimitOrder side price qty).1
  /-- Ids whose order has left, ids not issued and ids that cannot be are dead. -/
  dead : ∀ id, id ∈ s.gone ∨ id ∉ s.issued ∨ id = 0 ∨ s.book.idSlots.length ≤ id →
    s.book.Rejects id
  cancelled : ∀ id, (s.book.cancelOrder id).1 = true → id ∈ (s.step (.cancel id)).gone
  /-- An order that a fill uses up has left. -/
  filled : ∀ op, ∀ t ∈ s.book.fillTrace (.call op), t.Exhausts → t.id ∈ (s.step op).gone
  replaced : ∀ id o newPrice newQty, s.book.findId id = some o →
    newPrice ≠ (s.book.mem o).price → s.Replaced id o newPrice newQty

end Session

namespace OrderBook

variable {b : OrderBook} {id : Nat} {o : Ptr} {s t : Side} {px k newPrice : Int} {newQty : Qty}

/-- Calls with an unmapped id fail and change nothing. -/
theorem rejects_of_unmapped (hf : b.findId id = none) : b.Rejects id where
  cancel := by simp only [cancelOrder, hf]
  modify newPrice newQty := by simp only [modifyOrder, hf]
  configure display := by simp only [configureIceberg, hf]
  fill qty := by simp only [applyFill, hf]

/-- The entries at a price are those of its queue. -/
theorem entriesAt_eq (h : b.WellFormed) :
    b.entriesAt s px = (b.queues.levelAt s px).queue := by
  have hfind : Ladder.find s.cmp px (b.queues.ladder s) =
      (b.findLevel s px).map (Prod.map id (PriceLevel.view b.mem)) := by
    rw [queues_ladder, Ladder.find_mapValues]
    rfl
  rw [entriesAt, Queue.Book.levelAt, hfind]
  cases hl : b.findLevel s px with
  | none =>
    rw [getLevelOrders, hl]
    rfl
  | some r =>
    obtain ⟨i, l⟩ := r
    rw [h.getLevelOrders_eq hl]
    rfl

section Step

variable (h : b.WellFormed) (hs : b.StopFree)
include h hs

theorem mem_restingIds : id ∈ b.restingIds ↔ ∃ o, b.findId id = some o := by
  rw [restingIds, List.mem_map]
  constructor
  · intro hid
    obtain ⟨p, hp, rfl⟩ := hid
    obtain ⟨s, px, ho⟩ := mem_restingSlots.mp hp
    exact ⟨p, h.mapped s px p ho⟩
  · intro hid
    obtain ⟨o, hf⟩ := hid
    exact ⟨o, mem_restingSlots.mpr ((h.live_iff hs).mp ⟨id, hf⟩), (h.table id o hf).1⟩

/-- An id that has left is unmapped. -/
theorem unmapped_of_not_resting (hid : id ∉ b.restingIds) : b.findId id = none := by
  cases hf : b.findId id with
  | none => rfl
  | some o => exact absurd ((mem_restingIds h hs).mpr ⟨o, hf⟩) hid

/-- The pool has no slot to give iff all of them are queued. -/
theorem allocate_none_iff (hm : b.pool.mode = .pool) :
    b.pool.allocate = none ↔ b.restingSlots.length = b.pool.capacity := by
  have hlen := (h.partition hs hm).length_eq
  rw [List.length_append, List.length_range] at hlen
  have hfree : b.pool.allocate = none ↔ b.pool.freelist = [] := by
    unfold OrderPool.allocate
    rw [hm]
    cases b.pool.freelist with
    | nil => simp
    | cons p free => simp
  rw [hfree, ← List.length_eq_zero_iff]
  omega

omit hs in
/-- An addition returns the next id, or is refused. -/
theorem addLimitOrder_cases (side : Side) (price : Int) (qty : Qty) :
    (b.pool.allocate = none ∧ b.addLimitOrder side price qty = (0, b)) ∨
      b.pool.allocate ≠ none ∧ (b.addLimitOrder side price qty).1 = b.nextOrderId ∧
        (b.addLimitOrder side price qty).2.nextOrderId = b.nextOrderId + 1 ∧
        b.nextOrderId ≠ 0 := by
  cases ha : b.pool.allocate with
  | none => exact Or.inl ⟨rfl, addLimitOrder_full ha⟩
  | some r =>
    have hr := addLimitOrder_refines (o := r.1) ha h side price qty
    have hpos := h.idBound 0
    refine Or.inr ⟨nofun, ?_, congrArg Queue.Book.nextId hr.queues, by omega⟩
    rw [addLimitOrder_eq (o := r.1) ha]

omit h hs in
/-- A cancelled order has left. -/
theorem unmapped_cancel : (b.cancelOrder id).2.findId id = none := by
  rw [findId_cancelOrder, if_pos rfl]

/-- So has a replaced one. -/
theorem unmapped_replaced (hf : b.findId id = some o) (hpx : newPrice ≠ (b.mem o).price) :
    (b.apply (.modify id newPrice newQty)).findId id = none := by
  have hc := (h.cancelOrder (hs id)).2
  have hr := hc.wf.apply (hs.of_eq hc.stops) (.add (b.mem o).side newPrice newQty)
  have hstep : b.apply (.modify id newPrice newQty) =
      (b.cancelOrder id).2.apply (.add (b.mem o).side newPrice newQty) := by
    simp only [apply, modifyOrder_eq_add hf hpx]
  rw [hstep]
  rcases hr.ages.ids id (Nat.lt_of_lt_of_le (h.id_lt hf) hc.ages.next) with hn | heq
  · exact hn
  · exact heq.trans unmapped_cancel

/-- What a modification to another price does to the queues. -/
theorem queues_replaced (newQty : Qty) (hf : b.findId id = some o)
    (hpx : newPrice ≠ (b.mem o).price) :
    (b.apply (.modify id newPrice newQty)).queues =
      ((b.cancelOrder id).2.queues).add (b.mem o).side newPrice newQty := by
  have hr := h.apply hs (.modify id newPrice newQty)
  have hc := (h.cancelOrder (hs id)).2
  rw [hr.queues, hc.queues]
  simp only [Queue.Book.apply, Queue.Book.modify]
  obtain ⟨i, l, _, _, hi, ho, hloc⟩ := h.lookup_some (hs id) hf
  rw [hloc]
  exact if_neg hpx

/-- A cancellation takes the order out of its queue and touches no other. -/
theorem entriesAt_cancel (hf : b.findId id = some o) :
    (b.mem o).entry ∈ b.entriesAt (b.mem o).side (b.mem o).price ∧
    (b.cancelOrder id).2.entriesAt t k =
      if t = (b.mem o).side ∧ k = (b.mem o).price then
        (b.entriesAt t k).filter fun e => e.id ≠ id
      else b.entriesAt t k := by
  have hord := h.ordered_cancel (hs id)
  have hc := (h.cancelOrder (hs id)).2
  simp only [entriesAt_eq h, entriesAt_eq hc.wf]
  rw [hc.queues]
  obtain ⟨i, l, hid, _, hi, ho, hloc⟩ := h.lookup_some (hs id) hf
  have hat := WellFormed.at_of_level hi ho
  have hL := h.ordered.levelAt_of_mem (List.mem_of_getElem? hat.level)
  rw [Queue.Book.cancel, hloc] at hord ⊢
  refine ⟨?_, ?_⟩
  · rw [hL]
    exact hat.mem
  · rw [h.ordered.queue_put hat.level hord]
    split
    · next hk =>
      rw [hk.1, hk.2, hL, Queue.Level.remove, ← hid]
      rfl
    · rfl

/-- The place of a replacement, and the places that are as before. -/
theorem entriesAt_replaced (newQty : Qty) (hf : b.findId id = some o)
    (hpx : newPrice ≠ (b.mem o).price) :
    (b.apply (.modify id newPrice newQty)).entriesAt t k =
      if t = (b.mem o).side ∧ k = newPrice then
        b.entriesAt t k ++ [⟨b.nextOrderId, newQty, newQty, 0, 0⟩]
      else (b.cancelOrder id).2.entriesAt t k := by
  have hw := (h.apply hs (.modify id newPrice newQty)).wf
  have hr := hw.ordered
  have hc := (h.cancelOrder (hs id)).2
  have hq := queues_replaced h hs newQty hf hpx
  have hcancel := (entriesAt_cancel h hs hf (t := t) (k := k)).2
  have hnext : (b.cancelOrder id).2.queues.nextId = b.nextOrderId := by
    rw [hc.queues, Queue.Book.nextId_cancel]
    rfl
  rw [hq] at hr
  rw [entriesAt_eq hw, hq, hc.wf.ordered.queue_add hr, hnext]
  split
  · next hk =>
    obtain ⟨rfl, rfl⟩ := hk
    rw [if_neg fun he => hpx he.2] at hcancel
    rw [← entriesAt_eq hc.wf, hcancel]
  · rw [entriesAt_eq hc.wf]

end Step

/-- The order that a fill uses up is unmapped by it. -/
theorem unmapped_exhausts {u : FillStep} (hu : u.Sound) (hs : u.after.StopFree)
    (he : u.Exhausts) : u.after.findId u.id = none := by
  obtain ⟨o, hf, hle, hno⟩ := he
  rcases hu.effect with ⟨S, agg, hS, _, hfilled, hrep, hafter⟩ | ⟨hloc, _⟩
  · obtain ⟨l, p, _, _, hp, _, hentry⟩ := hu.wf.level_of_at hS
    obtain rfl : o = p := Option.some.inj (hf.symm.trans hp)
    have hrem : S.entry.remaining ≤ u.amt := by rw [hentry]; exact hle
    have hnone : S.entry.filled u.filled = none := by
      have hz : S.entry.remaining - u.filled = 0 := by
        rw [hfilled]
        exact Word.sub_min_eq_zero.mpr hrem
      have hnot : ¬ S.entry.Refillable := fun hr => hno (hrep.mpr ⟨hrem, hr⟩)
      simp only [Queue.Entry.filled, Queue.Entry.take, hz, if_pos, if_neg hnot]
    refine unmapped_of_not_resting hu.refines.wf hs fun hid => ?_
    obtain ⟨q, hq, hqid⟩ := List.mem_map.mp hid
    obtain ⟨t, k, ho⟩ := mem_restingSlots.mp hq
    have hr := WellFormed.rests_iff.mpr ⟨q, ho, rfl⟩
    rw [hafter, hu.wf.ordered.rests_fill hS] at hr
    rcases hr with ⟨_, hne⟩ | ⟨_, _, hsome⟩
    · exact hne hqid
    · rw [hnone] at hsome
      contradiction
  · have hid : u.before.stopSlot u.id = none := by
      rw [← hu.refines.stops]
      exact hs u.id
    rcases hu.wf.lookup hid with
      ⟨hn, _⟩ | ⟨_, _, _, _, _, _, _, _, hsome⟩
    · rw [hf] at hn
      contradiction
    · rw [hloc] at hsome
      contradiction

/-- A fill issues no id. -/
theorem next_of_sound {u : FillStep} (hu : u.Sound) :
    u.after.nextOrderId = u.before.nextOrderId := by
  change u.after.queues.nextId = u.before.queues.nextId
  rcases hu.effect with ⟨S, agg, _, _, _, _, hafter⟩ | ⟨_, _, _, hafter⟩
  · rw [hafter, Queue.Book.nextId_put]
  · rw [hafter]

theorem fills_ages {b' : OrderBook} {ts : List FillStep} (h : Fills b ts b') : Ages b b' := by
  induction h with
  | nil b => exact Ages.refl b
  | cons u ts b hu _ ih => exact hu.refines.ages.trans ih

/-- An order that one of the fills uses up was mapped at first and is not any more. -/
theorem fills_exhausts {b' : OrderBook} {ts : List FillStep} (h : Fills b ts b')
    (hs : b.StopFree) {u : FillStep} (hu : u ∈ ts) (he : u.Exhausts) :
    b.findId u.id ≠ none ∧ b'.findId u.id = none := by
  induction h with
  | nil b => contradiction
  | cons v ts b hv hrest ih =>
    have hafter : v.after.StopFree := hs.of_eq hv.refines.stops
    rcases List.mem_cons.mp hu with rfl | hu
    · obtain ⟨o, hf, _⟩ := id he
      refine ⟨by rw [hf]; nofun, ?_⟩
      have hlt : u.id < u.after.nextOrderId := by
        rw [next_of_sound hv]
        exact hv.wf.id_lt hf
      rcases (fills_ages hrest).ids _ hlt with hn | heq
      · exact hn
      · rw [heq]
        exact unmapped_exhausts hv hafter he
    · obtain ⟨hmapped, hlast⟩ := ih hafter hu
      refine ⟨fun hn => hmapped ?_, hlast⟩
      obtain ⟨o, hf⟩ := Option.ne_none_iff_exists'.mp hmapped
      have hlt : u.id < v.before.nextOrderId := by
        rw [← next_of_sound hv]
        exact hv.refines.wf.id_lt hf
      rcases hv.refines.ages.ids _ hlt with hz | heq
      · exact hz
      · exact heq.trans hn

end OrderBook

namespace Session

variable {s : Session} {capacity id : Nat} {o : Ptr} {newPrice : Int} {newQty : Qty}

/-- The invariant of a session: the ids handed out are those below the counter. -/
structure Valid (capacity : Nat) (s : Session) : Prop where
  wf : s.book.WellFormed
  stopFree : s.book.StopFree
  capacity : s.book.pool.capacity = capacity
  mode : s.book.pool.mode = .pool
  returned : ∀ id ∈ s.returned, id < s.book.nextOrderId
  issued : ∀ id, id ∈ s.issued ↔ 0 < id ∧ id < s.book.nextOrderId
  gone : ∀ id ∈ s.gone, id < s.book.nextOrderId ∧ s.book.findId id = none

namespace Valid

variable (h : s.Valid capacity)
include h

/-- Every call keeps the invariant. -/
theorem step (op : Op) : (s.step op).Valid capacity := by
  have hr := h.wf.apply h.stopFree op
  have hs := h.stopFree.of_eq hr.stops
  have hnext := hr.ages.next
  refine ⟨hr.wf, hs, hr.capacity.trans h.capacity, hr.mode.trans h.mode, ?_, ?_, ?_⟩
  · intro id hid
    rcases List.mem_append.mp hid with hid | hid
    · exact Nat.lt_of_lt_of_le (h.returned id hid) hnext
    · cases op with
      | add side price qty =>
        simp only [returnedBy] at hid
        rcases addLimitOrder_cases h.wf side price qty with ⟨_, hfull⟩ | ⟨_, hid', hn, _⟩
        · simp [hfull] at hid
        · split at hid
          · contradiction
          · rw [List.mem_singleton.mp hid, hid']
            change _ < (s.book.addLimitOrder side price qty).2.nextOrderId
            omega
      | cancel | modify | market | fill | configure => contradiction
  · intro id
    have hpos := h.wf.idBound 0
    change id ∈ s.issued ++ s.book.issuedBy op ↔ _ ∧ id < (s.book.apply op).nextOrderId
    rw [List.mem_append, h.issued, issuedBy, List.mem_range'_1]
    omega
  · intro id hid
    rcases List.mem_append.mp hid with hid | hid
    · obtain ⟨hlt, hn⟩ := h.gone id hid
      refine ⟨Nat.lt_of_lt_of_le hlt hnext, ?_⟩
      rcases hr.ages.ids id hlt with hz | heq
      · exact hz
      · exact heq.trans hn
    · obtain ⟨hrest, hnot⟩ := List.mem_filter.mp hid
      obtain ⟨o, hf⟩ := (mem_restingIds h.wf h.stopFree).mp hrest
      exact ⟨Nat.lt_of_lt_of_le (h.wf.id_lt hf) hnext,
        unmapped_of_not_resting hr.wf hs (of_decide_eq_true hnot)⟩

/-- Where a live id ends, the session notes it as gone. -/
theorem gone_step {op : Op} (hf : s.book.findId id ≠ none)
    (hf' : (s.book.apply op).findId id = none) : id ∈ (s.step op).gone := by
  have hr := h.wf.apply h.stopFree op
  refine List.mem_append_right _ (List.mem_filter.mpr ⟨?_, decide_eq_true fun hid => ?_⟩)
  · exact (mem_restingIds h.wf h.stopFree).mpr (Option.ne_none_iff_exists'.mp hf)
  · obtain ⟨o, ho⟩ := (mem_restingIds hr.wf (h.stopFree.of_eq hr.stops)).mp hid
    rw [hf'] at ho
    contradiction

/-- An id that is gone, was not issued or lies outside the table is unmapped. -/
theorem unmapped (hid : id ∈ s.gone ∨ id ∉ s.issued ∨ id = 0 ∨ s.book.idSlots.length ≤ id) :
    s.book.findId id = none := by
  cases hf : s.book.findId id with
  | none => rfl
  | some o =>
    have hpos := (h.wf.table id o hf).2
    rcases hid with hid | hid | rfl | hid
    · rw [(h.gone id hid).2] at hf
      contradiction
    · exact absurd ((h.issued id).mpr ⟨hpos, h.wf.id_lt hf⟩) hid
    · omega
    · rw [findId, if_pos hid] at hf
      contradiction

/-- A modification to another price replaces the order, also in a full pool. -/
theorem replaced (hf : s.book.findId id = some o) (hpx : newPrice ≠ (s.book.mem o).price)
    (newQty : Qty) : s.Replaced id o newPrice newQty := by
  have hat {t : Side} {k : Int} := entriesAt_replaced h.wf h.stopFree newQty hf hpx (t := t)
    (k := k)
  have hcancel {t : Side} {k : Int} := (entriesAt_cancel h.wf h.stopFree hf (t := t) (k := k)).2
  have hc := (h.wf.cancelOrder (h.stopFree id)).2
  have hnext : (s.book.apply (.modify id newPrice newQty)).nextOrderId =
      s.book.nextOrderId + 1 := by
    change (s.book.apply (.modify id newPrice newQty)).queues.nextId = _
    rw [queues_replaced h.wf h.stopFree newQty hf hpx, hc.queues]
    change (Queue.Book.cancel _ _).nextId + 1 = _
    rw [Queue.Book.nextId_cancel]
    rfl
  constructor
  · rw [modifyOrder_eq_add hf hpx]
  · exact h.gone_step (by rw [hf]; nofun) (unmapped_replaced h.wf h.stopFree hf hpx)
  · refine ⟨?_, fun hid => Nat.lt_irrefl _ ((h.issued _).mp hid).2⟩
    rw [issuedBy, hnext, Nat.add_sub_cancel_left]
    rfl
  · exact hat.trans (if_pos ⟨rfl, rfl⟩)
  · refine ⟨(entriesAt_cancel h.wf h.stopFree hf (t := .buy) (k := 0)).1, ?_⟩
    refine hat.trans ?_
    rw [if_neg fun hk => hpx hk.2.symm, hcancel, if_pos ⟨rfl, rfl⟩]
  · intro side px hnew hold
    refine hat.trans ?_
    rw [if_neg hnew, hcancel, if_neg hold]

theorem accountable : s.Accountable capacity where
  full_iff side price qty := by
    rw [← h.capacity, ← allocate_none_iff h.wf h.stopFree h.mode]
    rcases addLimitOrder_cases h.wf side price qty with ⟨hnone, hfull⟩ | ⟨hsome, hid, _, hpos⟩
    · rw [hfull]
      exact iff_of_true rfl hnone
    · rw [hid]
      exact iff_of_false hpos hsome
  refused side price qty hz := by
    rcases addLimitOrder_cases h.wf side price qty with ⟨_, hfull⟩ | ⟨_, hid, _, hpos⟩
    · rw [hfull]
    · exact absurd (hid.symm.trans hz) hpos
  increasing side price qty hz id hid := by
    rcases addLimitOrder_cases h.wf side price qty with ⟨_, hfull⟩ | ⟨_, hid', _, _⟩
    · rw [hfull] at hz
      contradiction
    · rw [hid']
      exact h.returned id hid
  dead id hid := rejects_of_unmapped (h.unmapped hid)
  cancelled id hres := by
    refine h.gone_step (fun hf => ?_) unmapped_cancel
    rw [(rejects_of_unmapped hf).cancel] at hres
    contradiction
  filled op u hu he := by
    have hfills := fillTrace_fills h.wf h.stopFree (.call op) (List.ne_nil_of_mem hu)
    obtain ⟨hf, hf'⟩ := fills_exhausts hfills h.stopFree hu he
    exact h.gone_step hf hf'
  replaced id o newPrice newQty hf hpx := h.replaced hf hpx newQty

end Valid

theorem Reachable.valid (h : Reachable capacity s) : s.Valid capacity := by
  refine Run.Reach.invariant (I := Valid capacity) h ?_ fun s op hs _ => hs.step op
  refine ⟨wellFormed_new capacity .pool, stopFree_new capacity .pool, rfl, rfl, by simp [new],
    fun id => ?_, by simp [new]⟩
  simp only [new, OrderBook.new, List.not_mem_nil, false_iff]
  omega

/-- Ids and slots are accounted for in every state that stop-free calls can reach. -/
theorem reachable_accountable (h : Reachable capacity s) : s.Accountable capacity :=
  h.valid.accountable

/-- A full pool in which an order is repriced, another one filled and a third one refused. -/
theorem reachable_accountable_full :
    (([.add .sell 100 2, .add .sell 101 3, .modify 1 102 4, .add .buy 99 1, .market .buy 3,
      .add .buy 98 1, .cancel 9] : List Op).foldl step (new 2)).Accountable 2 :=
  reachable_accountable (Run.Reach.foldl Run.Reach.init (by simp [Run.Allowed]))

end Session

end Lob
