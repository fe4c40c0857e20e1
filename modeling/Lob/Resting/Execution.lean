import Lob.Core.Loop
import Lob.Representation.Accounts
import Lob.Representation.Frame
import Lob.Resting.Runs

/-!
# Execution of market orders

A market order executes as much as both it and the opposite side have, price by
price: it reaches a price when everything better has been executed, and leaves
what is worse and the other side alone. Hidden quantity counts like visible one.
-/

namespace Lob.OrderBook

/-- The visible and hidden quantity resting on a side. -/
def volume (b : OrderBook) (s : Side) : Nat :=
  ((b.ladder s).map fun n => ((n.2.orders b.mem).map fun p =>
    (b.mem p).remainingQty.toNat + (b.mem p).hiddenQty.toNat).sum).sum

/-- The quantity that fills execute against order `id`. -/
def executedBy (fills : List Fill) (id : Nat) : Nat :=
  Queue.filledQty (fills.filter fun f => f.restingOrderId = id)

/-- The order of a side has been executed with all it showed and hid, and is gone. -/
structure Consumed (b b' : OrderBook) (fills : List Fill) (o : Ptr) : Prop where
  executed : executedBy fills (b.mem o).orderId =
    (b.mem o).remainingQty.toNat + (b.mem o).hiddenQty.toNat
  unmapped : b'.findId (b.mem o).orderId = none

/-- A level of a side is as it was, with all its orders. -/
structure Intact (b b' : OrderBook) (s : Side) (px : Int) (l : PriceLevel) : Prop where
  level : (px, l) ∈ b'.ladder s
  orders : ∀ p ∈ l.orders b.mem, b'.mem p = b.mem p ∧
    b'.findId (b.mem p).orderId = b.findId (b.mem p).orderId

/-- What a market order does, when `s` is the side it trades against. -/
structure ExecutesFrom (s : Side) (b : OrderBook) (qty : Qty) (fills : List Fill)
    (b' : OrderBook) : Prop where
  volume : Queue.filledQty fills = min qty.toNat (b.volume s)
  /-- Prices get no better from one fill to the next. -/
  prices : fills.Pairwise fun f g => s.cmp g.price f.price = false
  better : ∀ f ∈ fills, ∀ px o, b.On s px o → s.cmp px f.price = true → Consumed b b' fills o
  worse : ∀ px l, (px, l) ∈ b.ladder s → (∀ f ∈ fills, s.cmp f.price px = true) →
    Intact b b' s px l
  other : ∀ t, t ≠ s → b'.ladder t = b.ladder t ∧
    ∀ px l, (px, l) ∈ b.ladder t → Intact b b' t px l
  next : b'.nextOrderId = b.nextOrderId
  /-- An unfilled rest has emptied the side and is stored nowhere. -/
  rest : Queue.filledQty fills ≠ qty.toNat → b'.ladder s = []
  new : ∀ id, b'.findId id = none ∨ b'.findId id = b.findId id

/-- What a market order of `qty` does. -/
def Executes (b : OrderBook) (side : Side) (qty : Qty) : Prop :=
  ExecutesFrom side.opposite b qty (b.marketOrder side qty).1 (b.marketOrder side qty).2

variable {b b' : OrderBook} {s : Side} {w : Sweep} {capacity : Nat} {mode : AllocMode}

theorem volume_eq (b : OrderBook) (s : Side) : b.volume s = b.queues.volume s := by
  rw [volume, Queue.Book.volume, queues_ladder, Ladder.mapValues, List.map_map]
  congr 1
  refine List.map_congr_left fun n _ => ?_
  simp only [Function.comp_apply, Prod.map, Queue.Level.volume, PriceLevel.view, List.map_map]
  rfl

/-- No entry hides anything without a display size. -/
theorem Reachable.displayed (h : Reachable capacity mode b) :
    b.queues.All Queue.Entry.Displayed :=
  h.all FillStep.displayed_fills (fun _ _ _ => rfl) (fun _ _ he => he)
    (fun _ _ _ hd hz => absurd hz hd)

/-- What the loop has done to the book so far. -/
structure Swept (s : Side) (b : OrderBook) (qty : Qty) (w : Sweep) : Prop where
  wf : w.book.WellFormed
  displayed : w.book.queues.All Queue.Entry.Displayed
  volume : w.book.queues.volume s + Queue.filledQty w.fills = b.queues.volume s
  toFill : w.toFill.toNat + Queue.filledQty w.fills = qty.toNat
  prices : w.fills.Pairwise fun f g => s.cmp g.price f.price = false
  /-- No level left is better than a price at which there was a fill. -/
  ahead : ∀ f ∈ w.fills, ∀ n ∈ w.book.ladder s, s.cmp n.1 f.price = false
  behind : ∀ n ∈ b.ladder s, (∀ f ∈ w.fills, s.cmp f.price n.1 = true) →
    n ∈ w.book.ladder s ∧ ∀ p ∈ n.2.orders b.mem, w.book.mem p = b.mem p
  other : ∀ t, t ≠ s → w.book.ladder t = b.ladder t ∧
    ∀ n ∈ b.ladder t, ∀ p ∈ n.2.orders b.mem, w.book.mem p = b.mem p
  next : w.book.nextOrderId = b.nextOrderId

/-- The orders of a level that is as it was lie outside the other levels. -/
theorem not_mem_of_same {t : Side} {n : Int × PriceLevel} {px : Int} {l : PriceLevel}
    (hb : b.WellFormed) (h : w.book.WellFormed) (hn : n ∈ b.ladder t)
    (hmem : n ∈ w.book.ladder t) (hsame : ∀ p ∈ n.2.orders b.mem, w.book.mem p = b.mem p)
    (hi : (w.book.ladder s)[0]? = some (px, l)) (hne : ¬ (t = s ∧ n.1 = px)) {p : Ptr}
    (hp : p ∈ n.2.orders b.mem) : p ∉ l.orders w.book.mem := by
  have horders := (hb.shelved t).orders_frame hn hsame
  exact h.not_mem_of_on hi ⟨n.2, hmem, by rw [horders]; exact hp⟩ hne

theorem swept_init (h : b.WellFormed) (hd : b.queues.All Queue.Entry.Displayed) (qty : Qty) :
    Swept s b qty ⟨b, qty, []⟩ where
  wf := h
  displayed := hd
  volume := rfl
  toFill := rfl
  prices := List.Pairwise.nil
  ahead _ hf := absurd hf List.not_mem_nil
  behind _ hn _ := ⟨hn, fun _ _ => rfl⟩
  other _ _ := ⟨rfl, fun _ _ _ _ => rfl⟩
  next := rfl

/-- Each iteration takes from the best level what it fills. -/
theorem Swept.step {qty : Qty} (hb : b.WellFormed) (h : Swept s b qty w) (ha : w.active s = true) :
    Swept s b qty (sweepStep s w) := by
  cases hv : w.book.ladder s with
  | nil => simp [Sweep.active, hv] at ha
  | cons n rest =>
    obtain ⟨px, l⟩ := n
    have hi : (w.book.ladder s)[0]? = some (px, l) := by rw [hv]; rfl
    obtain ⟨⟨cur, _, hfills⟩, hladder, hother, hframe, hnext⟩ := h.wf.sweepsHead hv
    obtain ⟨hr, hview⟩ := h.wf.sweepStep (s := s)
    have hbook : (sweepStep s w).book.queues = (Queue.sweepStep s w.view).book :=
      congrArg Queue.Sweep.book hview
    have hqfills : (sweepStep s w).fills = (Queue.sweepStep s w.view).fills :=
      congrArg Queue.Sweep.fills hview
    have hqfill : (sweepStep s w).toFill = (Queue.sweepStep s w.view).toFill :=
      congrArg Queue.Sweep.toFill hview
    obtain ⟨hvol, hfill⟩ := Queue.sweepStep_volume (s := s) (w := w.view) h.wf.ordered h.displayed
    have hsorted := (h.wf.shelved s).sorted
    rw [hv, Ladder.Sorted, List.pairwise_cons] at hsorted
    have hbest (m : Int × PriceLevel) (hm : m ∈ (sweepStep s w).book.ladder s) :
        m.1 = px ∨ m ∈ rest := by
      rcases hladder with hl | ⟨l', hl⟩
      · exact Or.inr (hl ▸ hm)
      · rw [hl, List.mem_cons] at hm
        exact hm.imp_left fun he => by rw [he]
    constructor
    · exact hr.wf
    · rw [hbook]
      exact h.displayed.sweepStep FillStep.displayed_fills
    · rw [hbook, hqfills, hvol]
      exact h.volume
    · rw [hqfill, hqfills, hfill]
      exact h.toFill
    · rw [hfills, List.pairwise_append]
      refine ⟨h.prices, List.pairwise_singleton _ _, fun f hf g hg => ?_⟩
      rw [List.mem_singleton.mp hg]
      exact h.ahead f hf (px, l) (by rw [hv]; exact List.mem_cons_self)
    · intro f hf m hm
      rw [hfills, List.mem_append, List.mem_singleton] at hf
      rcases hf with hf | rfl
      · rcases hbest m hm with he | hrest
        · rw [he]
          exact h.ahead f hf (px, l) (by rw [hv]; exact List.mem_cons_self)
        · exact h.ahead f hf m (by rw [hv]; exact List.mem_cons_of_mem _ hrest)
      · rcases hbest m hm with he | hrest
        · rw [he]
          exact s.cmp_strict.irrefl px
        · exact s.cmp_strict.asymm (hsorted.1 m hrest)
    · intro m hm hworse
      rw [hfills] at hworse
      have hpx := hworse ⟨_, px, _⟩ (List.mem_append_right _ (List.mem_singleton_self _))
      obtain ⟨hmem, hsame⟩ := h.behind m hm fun f hf => hworse f (List.mem_append_left _ hf)
      have hne : m.1 ≠ px := by
        rintro rfl
        rw [s.cmp_strict.irrefl] at hpx
        contradiction
      have hrest : m ∈ rest := by
        rw [hv] at hmem
        rcases List.mem_cons.mp hmem with rfl | hmem
        · exact absurd rfl hne
        · exact hmem
      refine ⟨?_, fun p hp => ?_⟩
      · rcases hladder with hl | ⟨l', hl⟩
        · rw [hl]
          exact hrest
        · rw [hl]
          exact List.mem_cons_of_mem _ hrest
      · rw [hframe p (not_mem_of_same hb h.wf hm hmem hsame hi (fun hc => hne hc.2) hp),
          hsame p hp]
    · intro t ht
      obtain ⟨hl, hsame⟩ := h.other t ht
      refine ⟨(hother t ht).trans hl, fun m hm p hp => ?_⟩
      rw [hframe p (not_mem_of_same hb h.wf hm (hl ▸ hm) (hsame m hm) hi (fun hc => ht hc.1) hp),
        hsame m hm p hp]
    · exact hnext.trans h.next

/-- The invariant of the loop, at its end. -/
theorem swept_market (h : b.WellFormed) (hd : b.queues.All Queue.Entry.Displayed) (side : Side)
    (qty : Qty) : Swept side.opposite b qty (sweep side.opposite
      (b.sweepBound side.opposite qty) ⟨b, qty, []⟩) := by
  rw [sweep_eq_run]
  exact Loop.run_invariant (I := Swept side.opposite b qty) (fun w hw ha => hw.step h ha)
    (swept_init h hd qty) _

/-- The quantity filled is the smaller of what is asked for and what there is. -/
theorem Swept.volume_eq {qty : Qty} (h : Swept s b qty w) (ha : w.active s = false) :
    Queue.filledQty w.fills = min qty.toNat (b.volume s) ∧
      (Queue.filledQty w.fills ≠ qty.toNat → w.book.ladder s = []) := by
  have hvol := h.volume
  have hfill := h.toFill
  rw [OrderBook.volume_eq]
  by_cases hv : w.book.ladder s = []
  · have hzero : w.book.queues.volume s = 0 := by
      rw [Queue.Book.volume, queues_ladder, hv]
      rfl
    exact ⟨by omega, fun _ => hv⟩
  · have hz : w.toFill.toNat = 0 := by
      rw [Sweep.active, Bool.and_eq_false_iff, decide_eq_false_iff_not] at ha
      rcases ha with ha | ha
      · rw [UInt64.lt_iff_toNat_lt, UInt64.toNat_zero] at ha
        omega
      · simp [hv] at ha
    exact ⟨by omega, fun hne => absurd (by omega) hne⟩

/-- An order at a better price than some fill has been consumed. -/
theorem Swept.consumed {qty : Qty} {ts : List FillStep} (h : Swept s b qty w)
    (hd : b.queues.All Queue.Entry.Displayed) (hts : Fills b ts w.book)
    (hfills : w.fills = ts.map FillStep.report) (hstops : w.book.StopFree) {f : Fill}
    (hf : f ∈ w.fills) {px : Int} {o : Ptr} (ho : b.On s px o)
    (hbetter : s.cmp px f.price = true) : Consumed b w.book w.fills o := by
  have hrests : b.queues.Rests s px (b.mem o).entry := WellFormed.rests_iff.mpr ⟨o, ho, rfl⟩
  have hbal : b.queues.Balanced s px (b.mem o).orderId (b.mem o).entry.total 0 False :=
    Or.inl ⟨_, hrests, rfl, Nat.zero_add _⟩
  obtain ⟨_, hend⟩ := hts.balanced hd hbal
  rw [Nat.zero_add, Fills.sum_eq, ← hfills] at hend
  rcases hend with ⟨e, he, _⟩ | ⟨hgone, hex⟩
  · obtain ⟨p, ⟨l, hl, _⟩, _⟩ := WellFormed.rests_iff.mp he
    have hahead := h.ahead f hf _ hl
    rw [hbetter] at hahead
    contradiction
  · refine ⟨hex.resolve_left id, ?_⟩
    cases hfind : w.book.findId (b.mem o).orderId with
    | none => rfl
    | some p =>
      have hid := (h.wf.table _ p hfind).1
      rcases h.wf.lookup (hstops (b.mem o).orderId) with ⟨hn, _⟩ |
        ⟨q, i, l, hq, hqid, _, hi, hql, _⟩
      · rw [hn] at hfind
        contradiction
      · have hq' := WellFormed.rests_iff.mpr ⟨q, ⟨l, List.mem_of_getElem? hi, hql⟩, rfl⟩
        exact absurd hqid (hgone _ _ _ hq')

/-- Market orders execute in price priority, and everything there is. -/
theorem reachable_executes (capacity : Nat) (mode : AllocMode) (b : OrderBook)
    (hb : Reachable capacity mode b) (side : Side) (qty : Qty) : b.Executes side qty := by
  obtain ⟨hw, hs, _⟩ := hb.wellFormed
  have hd := hb.displayed
  have h := swept_market hw hd side qty
  obtain ⟨hts, hfills⟩ := market_fills hw side qty
  have hr := (hw.marketOrder side qty).2
  obtain ⟨hvol, hrest⟩ := h.volume_eq (hw.marketOrder_done side qty)
  have hlevel (t : Side) (n : Int × PriceLevel)
      (hn : n ∈ (b.marketOrder side qty).2.ladder t)
      (hsame : ∀ p ∈ n.2.orders b.mem, (b.marketOrder side qty).2.mem p = b.mem p)
      (hmem : n ∈ b.ladder t) : Intact b (b.marketOrder side qty).2 t n.1 n.2 := by
    refine ⟨hn, fun p hp => ⟨hsame p hp, ?_⟩⟩
    have horders := (hw.shelved t).orders_frame hmem hsame
    have hmapped := hr.wf.mapped t n.1 p ⟨n.2, hn, by rw [horders]; exact hp⟩
    rw [hsame p hp] at hmapped
    rw [hmapped, hw.mapped t n.1 p ⟨n.2, hmem, hp⟩]
  constructor
  · exact hvol
  · exact h.prices
  · intro f hf px o ho hbetter
    exact h.consumed hd hts hfills (hs.of_eq hr.stops) hf ho hbetter
  · intro px l hl hworse
    obtain ⟨hn, hsame⟩ := h.behind (px, l) hl hworse
    exact hlevel _ (px, l) hn hsame hl
  · intro t ht
    obtain ⟨hl, hsame⟩ := h.other t ht
    exact ⟨hl, fun px l hn => hlevel t (px, l) (hl.symm ▸ hn) (hsame _ hn) hn⟩
  · exact h.next
  · exact hrest
  · intro id
    rcases Nat.lt_or_ge id b.nextOrderId with hlt | hge
    · exact hr.ages.ids id hlt
    · left
      cases hf : (b.marketOrder side qty).2.findId id with
      | none => rfl
      | some p =>
        have hlt := hr.wf.id_lt hf
        rw [show (b.marketOrder side qty).2.nextOrderId = b.nextOrderId from h.next] at hlt
        omega

/-- A market order through an iceberg and a plain order at a worse price. -/
theorem reachable_executes_iceberg :
    (([.add .sell 100 5, .configure 1 2, .add .sell 101 4, .add .buy 99 3] : List Op).foldl apply
      (new 4 .pool)).Executes .buy 7 :=
  reachable_executes 4 .pool _ (Run.Reach.foldl Run.Reach.init (by simp [Run.Allowed])) .buy 7

end Lob.OrderBook
