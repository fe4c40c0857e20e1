import Lob.Core.Loop
import Lob.Queue.Progress
import Lob.Representation.Growth

/-!
# Matching

The loop of `market_order` and the pro-rata policy do to the queues what their
counterparts do, and return the same fills. The loop ends within its bound.
-/

namespace Lob

namespace OrderBook

variable {b : OrderBook} {s : Side} {i id : Nat} {px : Int} {l : PriceLevel} {o : Ptr}
  {m : Memory} {w : Sweep} {rest : PriceLadder}

/-- The loop variables over the queues. -/
def Sweep.view (w : Sweep) : Queue.Sweep := ⟨w.book.queues, w.toFill, w.fills⟩

/-- Unmapping and freeing an order before its level is written back. -/
theorem putLevel_dropId : ({ b.dropId id with mem := m }.deallocate o).putLevel s i px l =
    (({ b with mem := m }.putLevel s i px l).dropId id).deallocate o := by
  by_cases hid : id < b.idSlots.length
  · cases s <;> simp [dropId, hid, putLevel, setLadder, ladder, deallocate]
  · cases s <;> simp [dropId, hid, putLevel, setLadder, ladder, deallocate]

theorem sweep_eq_run (s : Side) (n : Nat) (w : Sweep) :
    sweep s n w = Loop.run (Sweep.active s) (sweepStep s) n w := by
  induction n generalizing w with
  | zero => rfl
  | succ n ih => rw [sweep, Loop.run, ih]

/-- `cur` is the first order of the best level. -/
structure AtHead (b : OrderBook) (s : Side) (px : Int) (l : PriceLevel) (cur : Ptr) : Prop where
  level : (b.ladder s)[0]? = some (px, l)
  head : l.head = some cur
  first : ∃ zs, l.orders b.mem = cur :: zs
  mem : cur ∈ l.orders b.mem
  on : b.On s px cur
  mapped : b.findId (b.mem cur).orderId = some cur
  price : (b.mem cur).price = px
  side : (b.mem cur).side = s

namespace WellFormed

/-- The best level has a head, which is the first of its queue. -/
theorem atHead (h : b.WellFormed) (hv : b.ladder s = (px, l) :: rest) :
    ∃ cur, b.AtHead s px l cur := by
  have hi : (b.ladder s)[0]? = some (px, l) := by rw [hv]; rfl
  have hne := (h.shelved s).nonempty _ (List.mem_of_getElem? hi)
  have hhead : l.head = (l.orders b.mem).head? := (h.holds hi).list.head
  cases ho : l.orders b.mem with
  | nil => exact absurd ho hne
  | cons cur zs =>
    rw [ho] at hhead
    have hmem : cur ∈ l.orders b.mem := by rw [ho]; exact List.mem_cons_self
    have hon : b.On s px cur := ⟨l, List.mem_of_getElem? hi, hmem⟩
    obtain ⟨hprice, hside, _⟩ := h.placed hon
    exact ⟨cur, hi, hhead, ⟨zs, ho⟩, hmem, hon, h.mapped s px cur hon, hprice, hside⟩

end WellFormed

/-- Its entry is the first of the queue. -/
theorem AtHead.queue {cur : Ptr} (h : b.AtHead s px l cur) :
    ∃ es, (l.view b.mem).queue = (b.mem cur).entry :: es := by
  obtain ⟨zs, horders⟩ := h.first
  refine ⟨zs.map fun p => (b.mem p).entry, ?_⟩
  rw [PriceLevel.view, horders]
  rfl

/-- An iteration of the loop on the first order of the best level. -/
theorem sweepStep_cons {cur : Ptr} (hv : w.book.ladder s = (px, l) :: rest)
    (hhead : l.head = some cur) (hprice : (w.book.mem cur).price = px) :
    sweepStep s w =
      { book := w.book.settle s 0 px
          (w.book.mem.modify cur fun x => x.take (min w.toFill (w.book.mem cur).remainingQty))
          (l.decreaseAggregate (min w.toFill (w.book.mem cur).remainingQty)) cur
        toFill := w.toFill - min w.toFill (w.book.mem cur).remainingQty
        fills := w.fills ++
          [⟨(w.book.mem cur).orderId, px, min w.toFill (w.book.mem cur).remainingQty⟩] } := by
  generalize hamt : min w.toFill (w.book.mem cur).remainingQty = amt
  have hwrite : (w.book.writeOrder cur fun x => { x with remainingQty := x.remainingQty - amt }) =
      { w.book with mem := w.book.mem.modify cur fun x => x.take amt } := rfl
  have hid : ((w.book.mem cur).take amt).orderId = (w.book.mem cur).orderId := rfl
  have hpx : ((w.book.mem cur).take amt).price = px := hprice
  simp only [sweepStep, hv, hhead, hamt, hwrite, Memory.modify_self, hid, hpx, eraseLevel_eq_put,
    settle]
  split
  · next hz =>
    cases hr : tryReplenishIceberg (w.book.mem.modify cur fun x => x.take amt)
        (l.decreaseAggregate amt) cur with
    | some r => rfl
    | none =>
      simp only [mem_dropId, putLevel_dropId (b := { w.book with mem := _ })]
  · rfl

namespace WellFormed

/-- One iteration of the loop fills the first entry of the best level. -/
theorem sweepStep (h : w.book.WellFormed) :
    Refines w.book (sweepStep s w).book (Queue.sweepStep s w.view).book ∧
      (OrderBook.sweepStep s w).view = Queue.sweepStep s w.view := by
  have hladder : w.view.book.ladder s =
      Ladder.mapValues (PriceLevel.view w.book.mem) (w.book.ladder s) := queues_ladder w.book s
  cases hv : w.book.ladder s with
  | nil =>
    have hvq : w.view.book.ladder s = [] := by rw [hladder, hv]; rfl
    have hstep : OrderBook.sweepStep s w = w := by simp only [OrderBook.sweepStep, hv]
    have hqstep : Queue.sweepStep s w.view = w.view := by simp only [Queue.sweepStep, hvq]
    rw [hstep, hqstep]
    exact ⟨Refines.refl h, rfl⟩
  | cons n rest =>
    obtain ⟨px, l⟩ := n
    obtain ⟨cur, hcur⟩ := h.atHead hv
    have hvq : w.view.book.ladder s = (px, l.view w.book.mem) ::
        Ladder.mapValues (PriceLevel.view w.book.mem) rest := by
      rw [hladder, hv]
      rfl
    obtain ⟨es, hq⟩ := hcur.queue
    rw [sweepStep_cons hv hcur.head hcur.price, Queue.sweepStep_cons hvq hq]
    have hends (amt : Qty) : (l.decreaseAggregate amt).ends = l.ends := rfl
    have hs := h.settle hcur.level hcur.mem (hends (min w.toFill (w.book.mem cur).remainingQty)) rfl
      (min w.toFill (w.book.mem cur).remainingQty)
    exact ⟨hs, congrArg (fun B => Queue.Sweep.mk B _ _) hs.queues⟩

theorem active_view : w.view.active s = w.active s := by
  rw [Sweep.active, Queue.Sweep.active, Sweep.view, queues_ladder, Ladder.mapValues]
  cases w.book.ladder s <;> rfl

/-- The loop over slots is the loop over queues. -/
theorem sweep (n : Nat) (h : w.book.WellFormed) :
    Refines w.book (sweep s n w).book (Queue.sweep s n w.view).book ∧
      (OrderBook.sweep s n w).view = Queue.sweep s n w.view := by
  induction n generalizing w with
  | zero => exact ⟨Refines.refl h, rfl⟩
  | succ n ih =>
    rw [OrderBook.sweep, Queue.sweep, active_view]
    split
    · obtain ⟨hstep, hview⟩ := h.sweepStep (s := s)
      obtain ⟨hrest, hview'⟩ := ih hstep.wf
      rw [hview] at hrest hview'
      exact ⟨hstep.trans hrest, hview'⟩
    · exact ⟨Refines.refl h, rfl⟩

theorem sweepBound_eq (h : b.WellFormed) (qty : Qty) :
    b.sweepBound s qty = b.queues.sweepBound s qty := by
  rw [sweepBound, Queue.Book.sweepBound, queues_ladder, Ladder.mapValues, List.map_map]
  congr 2
  apply List.map_congr_left
  intro n hn
  have hcnt := ((h.shelved s).holds n hn).cnt
  simp [hcnt, PriceLevel.view]

/-- The loop ends once it has as many iterations as work. -/
theorem sweep_done (n : Nat) (h : w.book.WellFormed) (hn : w.view.work s ≤ n) :
    (OrderBook.sweep s n w).active s = false := by
  induction n generalizing w with
  | zero =>
    cases ha : w.active s with
    | false => exact ha
    | true =>
      have hlt := Queue.sweepStep_work (w := w.view) h.ordered (active_view.trans ha)
      omega
  | succ n ih =>
    rw [OrderBook.sweep]
    split
    · next ha =>
      obtain ⟨hstep, hview⟩ := h.sweepStep (s := s)
      have hlt := Queue.sweepStep_work (w := w.view) h.ordered (active_view.trans ha)
      apply ih hstep.wf
      rw [hview]
      omega
    · next ha => simpa using ha

/-- `market_order` runs its loop to the end. -/
theorem marketOrder_done (h : b.WellFormed) (side : Side) (qty : Qty) :
    (OrderBook.sweep side.opposite (b.sweepBound side.opposite qty) ⟨b, qty, []⟩).active
      side.opposite = false := by
  apply h.sweep_done
  rw [h.sweepBound_eq]
  exact Queue.work_le_sweepBound _ _ _ _

/-- `market_order` sweeps the queues. -/
theorem marketOrder (h : b.WellFormed) (side : Side) (qty : Qty) :
    (b.marketOrder side qty).1 = (b.queues.market side qty).1 ∧
      Refines b (b.marketOrder side qty).2 (b.queues.market side qty).2 := by
  have hs := h.sweep (w := ⟨b, qty, []⟩) (s := side.opposite)
    (b.sweepBound side.opposite qty)
  rw [OrderBook.marketOrder, Queue.Book.market, ← h.sweepBound_eq]
  exact ⟨congrArg Queue.Sweep.fills hs.2, hs.1⟩

end WellFormed

/-- Settling an order writes links, and that order where it stands. -/
theorem settle_mem : ∃ f, Order.Quiet f ∧
    ∀ p, ((b.settle s i px m l o).mem p).bare = (m.modify o f p).bare := by
  rw [settle]
  split
  · cases hr : tryReplenishIceberg m l o with
    | some r =>
      rw [tryReplenishIceberg_eq] at hr
      split at hr
      · have hpush : (l.remove m o).2.pushBack ((l.remove m o).1.modify o Order.refill) o = r :=
          Option.some.inj hr
        have hmem : ({ b with mem := r.1 }.putLevel s i px r.2).mem = r.1 := mem_setLadder _
        refine ⟨Order.refill, Order.quiet_refill, fun p => ?_⟩
        simp only [hmem]
        rw [← hpush, PriceLevel.pushBack_bare]
        by_cases hp : p = o
        · subst hp
          rw [Memory.modify_self, Memory.modify_self]
          exact congrArg Order.refill PriceLevel.remove_bare
        · rw [Memory.modify_of_ne hp, Memory.modify_of_ne hp, PriceLevel.remove_bare]
      · contradiction
    | none =>
      have hmem : ((({ b with mem := (l.remove m o).1 }.putLevel s i px (l.remove m o).2).dropId
          (b.mem o).orderId).deallocate o).mem = (l.remove m o).1 :=
        mem_dropId.trans (mem_setLadder _)
      refine ⟨id, Order.quiet_id, fun p => ?_⟩
      simp only [hmem, Memory.modify_id]
      exact PriceLevel.remove_bare
  · have hmem : ({ b with mem := m }.putLevel s i px l).mem = m := mem_setLadder _
    refine ⟨id, Order.quiet_id, fun p => ?_⟩
    rw [hmem, Memory.modify_id]

/-- Settling an order leaves every slot its id and its place. -/
theorem settle_samePlace (p : Ptr) : ((b.settle s i px m l o).mem p).SamePlace (m p) := by
  obtain ⟨f, hf, hbare⟩ := settle_mem (b := b) (s := s) (i := i) (l := l) (m := m) (o := o)
  exact (Order.samePlace_of_bare (hbare p)).trans hf.samePlace

namespace WellFormed

theorem applyFill_samePlace (h : b.WellFormed) (hid : b.stopSlot id = none) (qty : Qty)
    (p : Ptr) : ((b.applyFill id qty).2.mem p).SamePlace (b.mem p) := by
  rcases h.lookup hid with ⟨hf, _⟩ | ⟨o, i, l, hf, _, hl, hi, ho, _⟩
  · rw [OrderBook.applyFill, hf]
    exact Order.SamePlace.refl _
  · rw [applyFill_eq h hf hl]
    exact (settle_samePlace p).trans (Order.quiet_take _).samePlace

/-- Applying an allocation to slots is applying it to their ids. -/
theorem proRata_apply (px : Int) (ps : List (Ptr × Qty)) (fills : List Fill) (h : b.WellFormed)
    (hps : ∀ n ∈ ps, b.stopSlot (b.mem n.1).orderId = none) :
    (ProRata.apply px ps (fills, b)).1 = (Queue.Book.allot px
        (ps.map fun n => ((b.mem n.1).orderId, n.2)) (fills, b.queues)).1 ∧
      Refines b (ProRata.apply px ps (fills, b)).2 (Queue.Book.allot px
        (ps.map fun n => ((b.mem n.1).orderId, n.2)) (fills, b.queues)).2 := by
  induction ps generalizing b fills with
  | nil => exact ⟨rfl, Refines.refl h⟩
  | cons n ps ih =>
    obtain ⟨o, a⟩ := n
    have hrest := fun n hn => hps n (List.mem_cons_of_mem _ hn)
    rw [ProRata.apply, List.map_cons, Queue.Book.allot]
    split
    · exact ih fills h hrest
    · have hid := hps (o, a) List.mem_cons_self
      obtain ⟨hfilled, hstep⟩ := h.applyFill hid a
      have horder := fun p => (h.applyFill_samePlace hid a p).orderId
      have hmap : (ps.map fun n =>
          (((b.applyFill (b.mem o).orderId a).2.mem n.1).orderId, n.2)) =
          ps.map fun n => ((b.mem n.1).orderId, n.2) := by
        simp only [horder]
      have hrest' : ∀ n ∈ ps, (b.applyFill (b.mem o).orderId a).2.stopSlot
          ((b.applyFill (b.mem o).orderId a).2.mem n.1).orderId = none := by
        intro n hn
        rw [horder, hstep.stops]
        exact hrest n hn
      simp only [← hfilled]
      have hi := ih (if 0 < (b.applyFill (b.mem o).orderId a).1 then
        fills ++ [⟨(b.mem o).orderId, px, (b.applyFill (b.mem o).orderId a).1⟩] else fills)
        hstep.wf hrest'
      rw [hmap, hstep.queues] at hi
      exact ⟨hi.1, hstep.trans hi.2⟩

/-- `ProRataPolicy::match` fills the queue of the best level. -/
theorem proRata (h : b.WellFormed) (minFill : Qty) (side : Side) (qty : Qty) :
    (ProRata.match minFill b side qty).1 = (b.queues.proRata minFill side qty).1 ∧
      Refines b (ProRata.match minFill b side qty).2 (b.queues.proRata minFill side qty).2 := by
  have hladder := queues_ladder b side.opposite
  cases hv : b.ladder side.opposite with
  | nil =>
    have hvq : b.queues.ladder side.opposite = [] := by rw [hladder, hv]; rfl
    simp only [ProRata.match, best, hv, List.head?_nil, Option.map_none, Queue.Book.proRata, hvq]
    exact ⟨trivial, Refines.refl h⟩
  | cons n rest =>
    obtain ⟨px, l⟩ := n
    have hi : (b.ladder side.opposite)[0]? = some (px, l) := by rw [hv]; rfl
    have hlevel : b.getLevelOrders side.opposite px = l.orders b.mem :=
      h.getLevelOrders_eq (h.findLevel_eq_some.mpr hi)
    have hvq : b.queues.ladder side.opposite = (px, l.view b.mem) ::
        Ladder.mapValues (PriceLevel.view b.mem) rest := by
      rw [hladder, hv]
      rfl
    have hsizes : (l.view b.mem).queue.map Queue.Entry.remaining =
        (l.orders b.mem).map fun o => (b.mem o).remainingQty := by
      rw [PriceLevel.view, List.map_map]
      rfl
    have hids : (l.view b.mem).queue.map Queue.Entry.id =
        (l.orders b.mem).map fun o => (b.mem o).orderId := by
      rw [PriceLevel.view, List.map_map]
      rfl
    have hnil : (l.view b.mem).queue = [] ↔ l.orders b.mem = [] := List.map_eq_nil_iff
    simp only [ProRata.match, best, hv, List.head?_cons, Option.map_some, Queue.Book.proRata, hvq,
      hlevel, hsizes, hids, hnil]
    split
    · exact ⟨rfl, Refines.refl h⟩
    · generalize ProRata.alloc minFill qty _ _ = shares
      have hzip : ((l.orders b.mem).map fun o => (b.mem o).orderId).zip shares =
          ((l.orders b.mem).zip shares).map fun n => ((b.mem n.1).orderId, n.2) := by
        rw [List.zip_map_left]
        rfl
      rw [hzip]
      apply h.proRata_apply
      intro n hn
      have hon : b.On side.opposite px n.1 :=
        ⟨l, List.mem_of_getElem? hi, (List.of_mem_zip hn).1⟩
      exact stopSlot_of_resting (h.mapped _ _ _ hon) (h.placed hon).2.2

/-- Matching under either policy is matching over the queues. -/
theorem run (h : b.WellFormed) (p : MatchingPolicy) (side : Side) (qty : Qty) :
    (p.run b side qty).1 = (b.queues.run p side qty).1 ∧
      Refines b (p.run b side qty).2 (b.queues.run p side qty).2 := by
  cases p with
  | fifoStack => exact h.marketOrder side qty
  | proRata minFill => exact h.proRata minFill side qty

end WellFormed

end OrderBook

end Lob
