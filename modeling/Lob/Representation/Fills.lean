import Lob.Representation.Matching

/-!
# The fills of a matching call

`apply_fill`, `market_order` and the pro-rata policy change resting orders by
single fills only. The trace of a call lists them with the books before and
after each, and what the call returns is read off the trace.
-/

namespace Lob

/-- A fill of up to `amt` offered to an order, at the price it is reported at. -/
structure FillStep where
  before : OrderBook
  id : Nat
  price : Int
  amt : Qty
  after : OrderBook

namespace FillStep

/-- The quantity the order takes. -/
def filled (t : FillStep) : Qty :=
  match t.before.findId t.id with
  | none => 0
  | some o => min t.amt (t.before.mem o).remainingQty

/-- The fill as it is returned. -/
def report (t : FillStep) : Fill := ⟨t.id, t.price, t.filled⟩

/-- The fill exhausts the visible slice and the order has a next one. -/
def Replenishes (t : FillStep) : Prop :=
  ∃ o, t.before.findId t.id = some o ∧ (t.before.mem o).remainingQty ≤ t.amt ∧
    (t.before.mem o).displayQty ≠ 0 ∧ (t.before.mem o).hiddenQty ≠ 0

/-- The step fills the entry of its id at its price, or there is no such entry. -/
structure Sound (t : FillStep) : Prop where
  wf : t.before.WellFormed
  refines : OrderBook.Refines t.before t.after t.after.queues
  effect : (∃ S agg, t.before.queues.At t.id S ∧ S.price = t.price ∧
      t.filled = min t.amt S.entry.remaining ∧
      (t.Replenishes ↔ S.entry.remaining ≤ t.amt ∧ S.entry.Refillable) ∧
      t.after.queues = t.before.queues.put S.side S.index S.price
        (S.level.fill S.entry t.filled agg)) ∨
    t.before.queues.locate t.id = none ∧ t.filled = 0 ∧ ¬ t.Replenishes ∧
      t.after.queues = t.before.queues

end FillStep

/-- The steps lead from one book to another. -/
inductive Fills : OrderBook → List FillStep → OrderBook → Prop
  | nil (b : OrderBook) : Fills b [] b
  | cons (t : FillStep) (ts : List FillStep) (b : OrderBook) : t.Sound → Fills t.after ts b →
      Fills t.before (t :: ts) b

namespace OrderBook

/-- The fill of the first order of the best level. -/
def headFill (s : Side) (w : Sweep) : List FillStep :=
  match w.book.ladder s with
  | [] => []
  | (px, l) :: _ =>
    match l.head with
    | none => []
    | some cur => [⟨w.book, (w.book.mem cur).orderId, px, w.toFill, (sweepStep s w).book⟩]

/-- The fills of `market_order`'s loop. -/
def sweepTrace (s : Side) : Nat → Sweep → List FillStep
  | 0, _ => []
  | n + 1, w => if w.active s then headFill s w ++ sweepTrace s n (sweepStep s w) else []

def marketTrace (b : OrderBook) (side : Side) (qty : Qty) : List FillStep :=
  sweepTrace side.opposite (b.sweepBound side.opposite qty) ⟨b, qty, []⟩

/-- The fill of `apply_fill`. -/
def fillStep (b : OrderBook) (id : Nat) (px : Int) (amt : Qty) : FillStep :=
  ⟨b, id, px, amt, (b.applyFill id amt).2⟩

/-- The fills of an allocation. -/
def allotTrace (px : Int) : List (Ptr × Qty) → OrderBook → List FillStep
  | [], _ => []
  | (o, a) :: rest, b =>
    if a = 0 then allotTrace px rest b
    else b.fillStep (b.mem o).orderId px a ::
      allotTrace px rest (b.applyFill (b.mem o).orderId a).2

def proRataTrace (minFill : Qty) (b : OrderBook) (side : Side) (qty : Qty) : List FillStep :=
  match b.best side.opposite with
  | none => []
  | some px =>
    let orders := b.getLevelOrders side.opposite px
    let sizes := orders.map fun o => (b.mem o).remainingQty
    if orders = [] ∨ sizes.sum = 0 then []
    else
      let ids := orders.map fun o => (b.mem o).orderId
      allotTrace px (orders.zip (ProRata.alloc minFill qty ids sizes)) b

variable {b b' : OrderBook} {s : Side} {id : Nat} {px : Int} {w : Sweep} {o : Ptr} {l : PriceLevel}
  {ts : List FillStep}

theorem Refines.self {B : Queue.Book} (h : Refines b b' B) : Refines b b' b'.queues := by
  rw [h.queues]
  exact h

/-- `apply_fill` is one sound step. -/
theorem fillStep_sound (h : b.WellFormed) (hid : b.stopSlot id = none) (amt : Qty)
    (hpx : ∀ o, b.findId id = some o → (b.mem o).price = px) :
    (b.fillStep id px amt).Sound ∧ (b.fillStep id px amt).filled = (b.applyFill id amt).1 := by
  obtain ⟨hres, hr⟩ := h.applyFill hid amt
  have hqueues : (b.fillStep id px amt).after.queues = (b.queues.applyFill id amt).2 := hr.queues
  rcases h.lookup hid with ⟨hf, hloc⟩ | ⟨o, i, l, hf, horder, hl, hi, ho, hloc⟩
  · have hfilled : (b.fillStep id px amt).filled = 0 := by
      simp only [FillStep.filled, fillStep, hf]
    rw [Queue.Book.applyFill, hloc] at hres hqueues
    refine ⟨⟨h, hr.self, Or.inr ⟨hloc, hfilled, ?_, hqueues⟩⟩, hfilled.trans hres.symm⟩
    rintro ⟨o, ho, _⟩
    simp only [fillStep] at ho
    rw [hf] at ho
    contradiction
  · have hat := WellFormed.at_of_level hi ho
    rw [horder] at hat
    have hfilled : (b.fillStep id px amt).filled = min amt (b.mem o).entry.remaining := by
      simp only [FillStep.filled, fillStep, hf, Order.entry_remaining]
    rw [Queue.Book.applyFill, hloc] at hres hqueues
    refine ⟨⟨h, hr.self, Or.inl ⟨_, adjusted l.aggQty (-(min amt (b.mem o).remainingQty).toInt64),
      hat, hpx o hf, hfilled, ?_, ?_⟩⟩, hfilled.trans hres.symm⟩
    · constructor
      · rintro ⟨p, hp, hle, hd, hh⟩
        obtain rfl : o = p := Option.some.inj (hf.symm.trans hp)
        exact ⟨hle, hd, hh⟩
      · rintro ⟨hle, hd, hh⟩
        exact ⟨o, hf, hle, hd, hh⟩
    · rw [hfilled]
      exact hqueues

/-- The running loop fills the head of the best level and reports it. -/
theorem headFill_sound (h : w.book.WellFormed) (ha : w.active s = true) :
    ∃ t px l rest cur, headFill s w = [t] ∧ t.Sound ∧ t.before = w.book ∧
      t.after = (sweepStep s w).book ∧ (sweepStep s w).fills = w.fills ++ [t.report] ∧
      w.book.ladder s = (px, l) :: rest ∧ l.head = some cur ∧
      t.id = (w.book.mem cur).orderId ∧ t.price = px := by
  cases hv : w.book.ladder s with
  | nil => simp [Sweep.active, hv] at ha
  | cons n rest =>
    obtain ⟨px, l⟩ := n
    obtain ⟨cur, hcur⟩ := h.atHead hv
    have hat := WellFormed.at_of_level hcur.level hcur.mem
    have hends (amt : Qty) : (l.decreaseAggregate amt).ends = l.ends := rfl
    have hr := h.settle hcur.level hcur.mem (hends (min w.toFill (w.book.mem cur).remainingQty)) rfl
      (min w.toFill (w.book.mem cur).remainingQty)
    have hstep := sweepStep_cons (w := w) hv hcur.head hcur.price
    have hfilled : (⟨w.book, (w.book.mem cur).orderId, px, w.toFill, (sweepStep s w).book⟩ :
        FillStep).filled = min w.toFill (w.book.mem cur).remainingQty := by
      simp only [FillStep.filled, hcur.mapped]
    refine ⟨⟨w.book, (w.book.mem cur).orderId, px, w.toFill, (sweepStep s w).book⟩, px, l, rest,
      cur, ?_, ⟨h, ?_, Or.inl ⟨_, decreased l.aggQty (min w.toFill (w.book.mem cur).remainingQty),
        hat, rfl, hfilled, ?_, ?_⟩⟩, rfl, rfl, ?_, rfl, hcur.head, rfl, rfl⟩
    · simp only [headFill, hv, hcur.head]
    · exact (h.sweepStep (s := s)).1.self
    · constructor
      · rintro ⟨p, hp, hle, hd, hh⟩
        obtain rfl : cur = p := Option.some.inj (hcur.mapped.symm.trans hp)
        exact ⟨hle, hd, hh⟩
      · rintro ⟨hle, hd, hh⟩
        exact ⟨cur, hcur.mapped, hle, hd, hh⟩
    · rw [hfilled]
      simp only [hstep]
      exact hr.queues
    · rw [FillStep.report, hfilled, hstep]

/-- The loop's trace leads to its result, and its reports are the fills. -/
theorem sweep_fills (n : Nat) (h : w.book.WellFormed) :
    Fills w.book (sweepTrace s n w) (sweep s n w).book ∧
      (sweep s n w).fills = w.fills ++ (sweepTrace s n w).map FillStep.report := by
  induction n generalizing w with
  | zero => exact ⟨Fills.nil _, (List.append_nil _).symm⟩
  | succ n ih =>
    rw [sweep, sweepTrace]
    split
    · next ha =>
      obtain ⟨t, _, _, _, _, hhead, ht, hbefore, hafter, hfills, _⟩ := headFill_sound h ha
      obtain ⟨hrest, hreports⟩ := ih (h.sweepStep (s := s)).1.wf
      rw [hhead, List.singleton_append, ← hbefore]
      rw [← hafter] at hrest
      refine ⟨Fills.cons t _ _ ht hrest, ?_⟩
      rw [hreports, hfills, List.map_cons, List.append_assoc, List.singleton_append]
    · exact ⟨Fills.nil _, (List.append_nil _).symm⟩

/-- `market_order` is its trace of fills. -/
theorem market_fills (h : b.WellFormed) (side : Side) (qty : Qty) :
    Fills b (b.marketTrace side qty) (b.marketOrder side qty).2 ∧
      (b.marketOrder side qty).1 = (b.marketTrace side qty).map FillStep.report := by
  obtain ⟨hfills, hreports⟩ := sweep_fills (w := ⟨b, qty, []⟩) (s := side.opposite)
    (b.sweepBound side.opposite qty) h
  exact ⟨hfills, hreports.trans (List.nil_append _)⟩

/-- An allocation is its trace of fills, of which the empty ones are not reported. -/
theorem allot_fills (ps : List (Ptr × Qty)) (fills : List Fill) (h : b.WellFormed)
    (hps : ∀ n ∈ ps, b.stopSlot (b.mem n.1).orderId = none ∧ (b.mem n.1).price = px) :
    Fills b (allotTrace px ps b) (ProRata.apply px ps (fills, b)).2 ∧
      (ProRata.apply px ps (fills, b)).1 =
        fills ++ ((allotTrace px ps b).map FillStep.report).filter fun f => 0 < f.qty := by
  induction ps generalizing b fills with
  | nil => exact ⟨Fills.nil _, (List.append_nil _).symm⟩
  | cons n ps ih =>
    obtain ⟨o, a⟩ := n
    have hrest := fun n hn => hps n (List.mem_cons_of_mem _ hn)
    rw [ProRata.apply, allotTrace]
    split
    · exact ih fills h hrest
    · obtain ⟨hid, hprice⟩ := hps (o, a) List.mem_cons_self
      have hslot : ∀ q, b.findId (b.mem o).orderId = some q → (b.mem q).price = px := by
        intro q hq
        rw [h.slotId o q hq]
        exact hprice
      obtain ⟨ht, hfilled⟩ := fillStep_sound h hid a hslot
      have hplace := h.applyFill_samePlace hid a
      have hstep := (h.applyFill hid a).2
      have hrest' : ∀ n ∈ ps, (b.applyFill (b.mem o).orderId a).2.stopSlot
          ((b.applyFill (b.mem o).orderId a).2.mem n.1).orderId = none ∧
          ((b.applyFill (b.mem o).orderId a).2.mem n.1).price = px := by
        intro n hn
        rw [(hplace n.1).orderId, (hplace n.1).price, hstep.stops]
        exact hrest n hn
      simp only [← hfilled]
      obtain ⟨hfills, hreports⟩ := ih (if 0 < (b.fillStep (b.mem o).orderId px a).filled then
        fills ++ [⟨(b.mem o).orderId, px, (b.fillStep (b.mem o).orderId px a).filled⟩] else fills)
        hstep.wf hrest'
      refine ⟨Fills.cons (b.fillStep (b.mem o).orderId px a) _ _ ht hfills, ?_⟩
      have hreport : (b.fillStep (b.mem o).orderId px a).report =
        ⟨(b.mem o).orderId, px, (b.fillStep (b.mem o).orderId px a).filled⟩ := rfl
      rw [hreports, List.map_cons, List.filter_cons, hreport]
      split
      · next hpos =>
        rw [if_pos (by simpa using hpos), List.append_assoc, List.singleton_append]
      · next hpos => rw [if_neg (by simpa using hpos)]

/-- `ProRataPolicy::match` is its trace of fills. -/
theorem proRata_fills (h : b.WellFormed) (minFill : Qty) (side : Side) (qty : Qty) :
    Fills b (proRataTrace minFill b side qty) (ProRata.match minFill b side qty).2 ∧
      (ProRata.match minFill b side qty).1 =
        ((proRataTrace minFill b side qty).map FillStep.report).filter fun f => 0 < f.qty := by
  cases hbest : b.best side.opposite with
  | none =>
    simp only [ProRata.match, proRataTrace, hbest]
    exact ⟨Fills.nil b, rfl⟩
  | some px =>
    simp only [ProRata.match, proRataTrace, hbest]
    split
    · exact ⟨Fills.nil b, rfl⟩
    · have hps : ∀ n ∈ (b.getLevelOrders side.opposite px).zip (ProRata.alloc minFill qty
          ((b.getLevelOrders side.opposite px).map fun o => (b.mem o).orderId)
          ((b.getLevelOrders side.opposite px).map fun o => (b.mem o).remainingQty)),
          b.stopSlot (b.mem n.1).orderId = none ∧ (b.mem n.1).price = px := by
        intro n hn
        have ho := (List.of_mem_zip hn).1
        cases hl : b.findLevel side.opposite px with
        | none =>
          rw [getLevelOrders, hl] at ho
          contradiction
        | some r =>
          obtain ⟨i, l⟩ := r
          rw [h.getLevelOrders_eq hl] at ho
          have hon : b.On side.opposite px n.1 :=
            ⟨l, List.mem_of_getElem? (h.findLevel_eq_some.mp hl), ho⟩
          have hplaced := h.placed hon
          exact ⟨WellFormed.stopSlot_of_resting (h.mapped _ _ _ hon) hplaced.2.2, hplaced.1⟩
      obtain ⟨hfills, hreports⟩ := allot_fills _ [] h hps
      exact ⟨hfills, hreports.trans (List.nil_append _)⟩

end OrderBook

end Lob
