import Lob.Queue.Cancellation
import Lob.Resting.Runs

/-!
# Undoing and reordering cancellations

What a side holds is determined by its queues and by the slots of their ids:
level records, links and orders follow. So what holds of cancellations in the
queues holds of the book: a cancellation undoes an addition, and two
cancellations commute.
-/

namespace Lob.OrderBook

/-- The two books hold the same levels, record for record, with the same orders in them. -/
structure SameLevels (b b' : OrderBook) : Prop where
  ladder : ∀ s, b'.ladder s = b.ladder s
  orders : ∀ s, ∀ n ∈ b.ladder s, n.2.orders b'.mem = n.2.orders b.mem ∧
    ∀ p ∈ n.2.orders b.mem, b'.mem p = b.mem p

/-- Cancelling the order just added leaves the book as it was before. -/
structure Undoes (b : OrderBook) (side : Side) (price : Int) (qty : Qty) : Prop where
  cancelled : ((b.addLimitOrder side price qty).2.cancelOrder
    (b.addLimitOrder side price qty).1).1 = true
  levels : SameLevels b ((b.addLimitOrder side price qty).2.cancelOrder
    (b.addLimitOrder side price qty).1).2
  lookup : ∀ j, j ≠ (b.addLimitOrder side price qty).1 →
    ((b.addLimitOrder side price qty).2.cancelOrder
      (b.addLimitOrder side price qty).1).2.findId j = b.findId j
  free : ((b.addLimitOrder side price qty).2.cancelOrder
    (b.addLimitOrder side price qty).1).2.pool.freelist.length = b.pool.freelist.length

/-- Cancelling two ids in either order leaves the same. -/
structure Commutes (b : OrderBook) (i j : Nat) : Prop where
  levels : SameLevels ((b.cancelOrder i).2.cancelOrder j).2 ((b.cancelOrder j).2.cancelOrder i).2
  lookup : ∀ k, ((b.cancelOrder j).2.cancelOrder i).2.findId k =
    ((b.cancelOrder i).2.cancelOrder j).2.findId k

variable {b b' : OrderBook} {s : Side} {i j id : Nat} {px : Int} {l l' : PriceLevel} {o p : Ptr}

section Determined

variable (h : b.WellFormed) (h' : b'.WellFormed)
  (hfind : ∀ s px p, b.On s px p → b'.findId (b.mem p).orderId = some p)
include h h' hfind

/-- A level is determined by what it shows. -/
theorem level_eq_of_view (hi : (b.ladder s)[i]? = some (px, l))
    (hi' : (b'.ladder s)[i]? = some (px, l')) (hview : l'.view b'.mem = l.view b.mem) :
    l' = l ∧ l.orders b'.mem = l.orders b.mem := by
  have hl := h.holds hi
  have hl' := h'.holds hi'
  have hentries : (l'.orders b'.mem).map (fun p => (b'.mem p).entry) =
      (l.orders b.mem).map fun p => (b.mem p).entry := congrArg Queue.Level.queue hview
  have hlen : (l'.orders b'.mem).length = (l.orders b.mem).length := by
    simpa using congrArg List.length hentries
  have horders : l'.orders b'.mem = l.orders b.mem := by
    refine List.ext_getElem hlen fun k hk hk' => ?_
    have hentry := List.getElem_of_eq hentries (i := k) (by simpa using hk)
    rw [List.getElem_map, List.getElem_map] at hentry
    have hid := congrArg Queue.Entry.id hentry
    have hmapped := h'.mapped s px _ ⟨l', List.mem_of_getElem? hi', List.getElem_mem hk⟩
    have hsame := hfind s px _ ⟨l, List.mem_of_getElem? hi, List.getElem_mem hk'⟩
    have hid' : (b'.mem (l'.orders b'.mem)[k]).orderId = (b.mem (l.orders b.mem)[k]).orderId := hid
    rw [hid', hsame] at hmapped
    exact (Option.some.inj hmapped).symm
  have heq : l' = l := by
    have hhead : l'.head = l.head := by
      have hh := hl'.list.head
      rw [horders] at hh
      exact hh.trans hl.list.head.symm
    have htail : l'.tail = l.tail := by
      have ht := hl'.list.tail
      rw [horders] at ht
      exact ht.trans hl.list.tail.symm
    have hagg : l'.aggQty = l.aggQty := congrArg Queue.Level.agg hview
    have hcnt : l'.cnt = l.cnt := hl'.cnt.trans (hlen.trans hl.cnt.symm)
    cases l
    cases l'
    simp only at hhead htail hagg hcnt
    rw [hhead, htail, hagg, hcnt]
  exact ⟨heq, heq ▸ horders⟩

/-- Books with the same queues, in the same slots, hold the same levels. -/
theorem sameLevels_of_queues (hqueues : ∀ s, b'.queues.ladder s = b.queues.ladder s)
    (hbare : ∀ s px p, b.On s px p → (b'.mem p).bare = (b.mem p).bare) : SameLevels b b' := by
  have hpair (s : Side) (i : Nat) (n : Int × PriceLevel) (hi : (b.ladder s)[i]? = some n) :
      (b'.ladder s)[i]? = some n ∧ n.2.orders b'.mem = n.2.orders b.mem := by
    obtain ⟨px, l⟩ := n
    have hq := congrArg (fun v => v[i]?) (hqueues s)
    simp only [queues_ladder, Ladder.getElem?_mapValues, hi, Option.map_some] at hq
    obtain ⟨⟨k, l'⟩, hi', he⟩ := Option.map_eq_some_iff.mp hq
    obtain rfl : k = px := congrArg Prod.fst he
    have hview : l'.view b'.mem = l.view b.mem := congrArg Prod.snd he
    obtain ⟨rfl, horders⟩ := level_eq_of_view h h' hfind hi hi' hview
    exact ⟨hi', horders⟩
  constructor
  · intro s
    refine List.ext_getElem? fun i => ?_
    cases hi : (b.ladder s)[i]? with
    | some n => exact (hpair s i n hi).1
    | none =>
      have hq := congrArg (fun v => v[i]?) (hqueues s)
      simpa only [queues_ladder, Ladder.getElem?_mapValues, hi, Option.map_none,
        Option.map_eq_none_iff] using hq
  · intro s n hn
    obtain ⟨i, hi⟩ := List.mem_iff_getElem?.mp hn
    obtain ⟨hi', horders⟩ := hpair s i n hi
    refine ⟨horders, fun p hp => ?_⟩
    have hlist := (h.holds hi).list
    have hlist' := (h'.holds hi').list
    rw [horders] at hlist'
    obtain ⟨hnext, hprev⟩ := hlist.seg.unique hlist'.seg p hp
    exact Order.ext_bare (hbare s n.1 p ⟨n.2, hn, hp⟩) hprev hnext

end Determined

section Cancel

/-- What a cancellation does to the level of its order. -/
def unlinkOrder (b : OrderBook) (o : Ptr) : OrderBook :=
  match b.findLevel (b.mem o).side (b.mem o).price with
  | some (i, l) => { b with mem := (l.remove b.mem o).1 }.putLevel (b.mem o).side i
      (b.mem o).price (l.remove b.mem o).2
  | none => b

/-- A cancel unlinks the order, unmaps its id and frees its slot. -/
theorem cancelOrder_eq (hf : b.findId id = some o) :
    (b.cancelOrder id) = (true, ((b.unlinkOrder o).dropId id).deallocate o) := by
  cases hl : b.findLevel (b.mem o).side (b.mem o).price with
  | none => simp only [cancelOrder, hf, unlinkOrder, hl]
  | some r => simp only [cancelOrder, hf, unlinkOrder, hl, eraseLevel_eq_put]

/-- Unlinking unmaps no id. -/
theorem findId_unlinkOrder (o : Ptr) (j : Nat) : (b.unlinkOrder o).findId j = b.findId j := by
  rw [unlinkOrder]
  split
  · rw [putLevel, findId_setLadder, findId_withMem]
  · rfl

/-- Unlinking writes links only. -/
theorem bare_unlinkOrder (o p : Ptr) : ((b.unlinkOrder o).mem p).bare = (b.mem p).bare := by
  rw [unlinkOrder]
  split
  · rw [putLevel, mem_setLadder]
    exact PriceLevel.remove_bare
  · rfl

/-- Unlinking frees no slot. -/
theorem pool_unlinkOrder (o : Ptr) : (b.unlinkOrder o).pool = b.pool := by
  rw [unlinkOrder]
  split
  · exact pool_setLadder _
  · rfl

/-- A cancellation unmaps its id. -/
theorem findId_cancelOrder (id j : Nat) :
    (b.cancelOrder id).2.findId j = if j = id then none else b.findId j := by
  cases hf : b.findId id with
  | none =>
    have heq : b.cancelOrder id = (false, b) := by simp only [cancelOrder, hf]
    rw [heq]
    split
    · next hj => rw [hj, hf]
    · rfl
  | some o => rw [cancelOrder_eq hf, findId_deallocate, findId_dropId, findId_unlinkOrder]

/-- A cancellation writes links only. -/
theorem bare_cancelOrder (id : Nat) (p : Ptr) :
    ((b.cancelOrder id).2.mem p).bare = (b.mem p).bare := by
  cases hf : b.findId id with
  | none => simp only [cancelOrder, hf]
  | some o =>
    rw [cancelOrder_eq hf]
    have hmem : (((b.unlinkOrder o).dropId id).deallocate o).mem = (b.unlinkOrder o).mem :=
      mem_dropId
    rw [hmem, bare_unlinkOrder]

/-- A cancellation returns the slot. -/
theorem pool_cancelOrder (hf : b.findId id = some o) :
    (b.cancelOrder id).2.pool = b.pool.deallocate o := by
  have hpool : (((b.unlinkOrder o).dropId id).deallocate o).pool =
      ((b.unlinkOrder o).dropId id).pool.deallocate o := rfl
  rw [cancelOrder_eq hf, hpool, pool_dropId, pool_unlinkOrder]

end Cancel

section Add

variable {pool : OrderPool} (ha : b.pool.allocate = some (o, pool))
include ha

/-- An accepted order gets the next id. -/
theorem addLimitOrder_id (s : Side) (px : Int) (qty : Qty) :
    (b.addLimitOrder s px qty).1 = b.nextOrderId := by
  rw [addLimitOrder_eq ha]

/-- An accepted order takes its slot from the pool. -/
theorem pool_addLimitOrder (s : Side) (px : Int) (qty : Qty) :
    (b.addLimitOrder s px qty).2.pool = pool := by
  rw [addLimitOrder_eq ha]
  exact pool_setLadder _

/-- An addition writes the links of the other orders only. -/
theorem bare_addLimitOrder (s : Side) (px : Int) (qty : Qty) (hp : p ≠ o) :
    ((b.addLimitOrder s px qty).2.mem p).bare = (b.mem p).bare := by
  have hbare := enqueue_bare (b.mem.modify o fun _ => b.limitOrder s px qty) s px (b.ladder s) o p
  rw [Memory.modify_of_ne hp] at hbare
  rw [addLimitOrder_eq ha]
  refine Eq.trans ?_ hbare
  exact congrArg (fun m : Memory => (m p).bare) (mem_setLadder _)

end Add

/-- Taking a slot and returning it restores the free list. -/
theorem freelist_allocate {p p' : OrderPool} (ha : p.allocate = some (o, p')) :
    (p'.deallocate o).freelist = p.freelist := by
  cases hm : p.mode with
  | pool =>
    rw [OrderPool.allocate, hm] at ha
    cases hf : p.freelist with
    | nil => simp [hf] at ha
    | cons q free =>
      simp only [hf, Option.some.injEq, Prod.mk.injEq] at ha
      obtain ⟨rfl, rfl⟩ := ha
      simp only [OrderPool.deallocate]
  | heap =>
    rw [OrderPool.allocate, hm] at ha
    simp only [Option.some.injEq, Prod.mk.injEq] at ha
    obtain ⟨_, rfl⟩ := ha
    simp only [OrderPool.deallocate]

section Stopless

variable (h : b.WellFormed) (hs : b.StopFree)
include h hs

/-- A cancel of a fresh order undoes it. -/
theorem undoes (hfree : b.pool.allocate ≠ none) (side : Side) (price : Int) (qty : Qty) :
    b.Undoes side price qty := by
  obtain ⟨⟨o, pool⟩, ha⟩ := Option.ne_none_iff_exists'.mp hfree
  have hr := addLimitOrder_refines ha h side price qty
  have hg := addLimitOrder_grows ha h side price qty
  have hid := addLimitOrder_id ha side price qty
  have hf : (b.addLimitOrder side price qty).2.findId b.nextOrderId = some o := by
    rw [hg.find, if_pos rfl]
  have hc := (hr.wf.cancelOrder (hs.of_eq hr.stops b.nextOrderId)).2
  have hlookup (j : Nat) (hj : j ≠ b.nextOrderId) :
      ((b.addLimitOrder side price qty).2.cancelOrder b.nextOrderId).2.findId j = b.findId j := by
    rw [findId_cancelOrder, if_neg hj, hg.find, if_neg hj]
  constructor
  · rw [hid, cancelOrder_eq hf]
  · rw [hid]
    refine sameLevels_of_queues h hc.wf (fun s px p hp => ?_) (fun s => ?_) (fun s px p hp => ?_)
    · have hmapped := h.mapped s px p hp
      rw [hlookup _ (Nat.ne_of_lt (h.id_lt hmapped)), hmapped]
    · have hord := hr.wf.ordered
      rw [hr.queues] at hord
      have hnext : b.queues.nextId = b.nextOrderId := rfl
      rw [hc.queues, hr.queues, ← hnext]
      exact h.ordered.cancel_add hord s
    · have hpo : p ≠ o := hg.ne_of_find (h.mapped s px p hp)
      rw [bare_cancelOrder, bare_addLimitOrder ha side price qty hpo]
  · rw [hid]
    exact hlookup
  · rw [hid, pool_cancelOrder hf, pool_addLimitOrder ha, freelist_allocate ha]

/-- Two cancels can be exchanged. -/
theorem commutes (i j : Nat) : b.Commutes i j := by
  have hi := (h.cancelOrder (hs i)).2
  have hj := (h.cancelOrder (hs j)).2
  have hij := (hi.wf.cancelOrder (hs.of_eq hi.stops j)).2
  have hji := (hj.wf.cancelOrder (hs.of_eq hj.stops i)).2
  have hlookup (k : Nat) : ((b.cancelOrder j).2.cancelOrder i).2.findId k =
      ((b.cancelOrder i).2.cancelOrder j).2.findId k := by
    simp only [findId_cancelOrder]
    split
    · split <;> rfl
    · rfl
  refine ⟨sameLevels_of_queues hij.wf hji.wf (fun s px p hp => ?_) (fun s => ?_)
    (fun s px p _ => ?_), hlookup⟩
  · rw [hlookup]
    exact hij.wf.mapped s px p hp
  · rw [hij.queues, hji.queues, hi.queues, hj.queues]
    exact h.ordered.cancel_comm (h.ordered_cancel (hs j)) (h.ordered_cancel (hs i)) s
  · simp only [bare_cancelOrder]

end Stopless

/-- In every reachable book, a cancellation undoes an addition, and cancellations commute. -/
theorem reachable_cancellation {capacity : Nat} {mode : AllocMode}
    (hb : Reachable capacity mode b) :
    (b.pool.allocate ≠ none → ∀ side price qty, b.Undoes side price qty) ∧
      ∀ i j, b.Commutes i j := by
  obtain ⟨hw, hs, _⟩ := hb.wellFormed
  exact ⟨undoes hw hs, commutes hw hs⟩

/-- Neighbours in a queue, one of them an iceberg, and an order that makes a level. -/
theorem reachable_cancellation_neighbours :
    (([.add .sell 100 5, .configure 1 2, .add .sell 100 3] : List Op).foldl apply
      (new 4 .pool)).Undoes .buy 99 7 ∧
    (([.add .sell 100 5, .configure 1 2, .add .sell 100 3] : List Op).foldl apply
      (new 4 .pool)).Commutes 1 2 :=
  have hb : Reachable 4 .pool (([.add .sell 100 5, .configure 1 2, .add .sell 100 3] :
      List Op).foldl apply (new 4 .pool)) := Run.Reach.foldl Run.Reach.init (by simp [Run.Allowed])
  ⟨(reachable_cancellation hb).1 (by decide +kernel) .buy 99 7, (reachable_cancellation hb).2 1 2⟩

end Lob.OrderBook
