import Lob.Engine.Reach

/-!
# Which stops a cascade leaves behind

A nested pass compares its price with the stops that are pending when it begins. A
stop that waits in the queue of an outer call is compared with the price of that call
only, and stays behind when the nested price alone would trigger it. From the book
and the pending stops it can be told before a call that no pass comes to this.
-/

namespace Lob

namespace MatchingEngine

open Config

/-- After a call, no registered stop is triggered by a price at which one of the call's batches of
fills ended. -/
def Complete (e e' : MatchingEngine) : Prop :=
  ∀ id, ∀ r ∈ e'.book.stopSlot id,
    ∀ p ∈ (e'.log.drop e.log.length).filterMap Event.traded, triggered p r.2 = false

instance (e e' : MatchingEngine) : Decidable (Complete e e') := by
  unfold Complete
  infer_instance

/-- The price at which the order of a call ends on the levels of the book, if it trades. -/
def Ends (e : MatchingEngine) (side : Side) (qty : Qty) (p : Int) : Prop :=
  e.policy.Trades e.book side qty ∧
    e.book.queues.Ends e.policy.gauge side.opposite (e.policy.gauge.spends qty) p

/-- No stop may be overlooked. -/
def Clear (e : MatchingEngine) (side : Side) (qty : Qty) : Prop :=
  ∀ p, e.Ends side qty p → ∀ o ∈ e.waiting.armed,
    ¬ Trigger.Overlooks (meets e.book) (e.reach side qty p) p e.waiting o

variable {e : MatchingEngine} {side : Side} {qty : Qty} {capacity : Nat} {mode : AllocMode}
  {policy : MatchingPolicy}

/-- Every registered stop is pending before a call. -/
theorem Settled.held_waiting (h : e.Settled) : e.waiting.Held :=
  fun o ⟨id, x, hx⟩ => Or.inl (List.mem_append_left _ (h.held id o x hx))

/-- The last price of a match is where its order ends. -/
theorem ends_of_lastPrice (hw : e.book.WellFormed)
    (hd : e.book.queues.All Queue.Entry.Displayed) {p : Int} (hl : e.lastPrice side qty = some p) :
    e.Ends side qty p := by
  refine ⟨?_, lastPrice_ends hw hd hl⟩
  by_contra hno
  rw [(lastPrice_eq_none hw).mpr hno] at hl
  contradiction

/-- Without fills a call trades at no price and activates nothing. -/
theorem Settled.market_quiet (h : e.Settled) (hl : e.lastPrice side qty = none) :
    (e.submitMarket side qty).2.log.drop e.log.length = [.market side qty (e.batch side qty)] := by
  have hsteps := (h.market_steps side qty).1
  rw [launch_none hl] at hsteps
  have heq : (e.submitMarket side qty).2 = e.matched side qty :=
    congrArg Config.engine (Steps.of_nil hsteps rfl)
  rw [heq]
  exact List.drop_left

/-- Two resting offers, of which the first is deep enough for two orders, and two buy stops, the
lower one first. -/
def stopsDeep : List Call :=
  [.limit .sell 100 2 0, .limit .sell 105 1 0, .stop .buy 100 1 .stopMarket 0 0,
    .stop .buy 103 1 .stopMarket 0 0]

/-- The first offer is deep enough for the two orders that are within reach of it. -/
theorem clear_deep : Clear (stopsDeep.foldl apply (new (OrderBook.new 8) .fifoStack)) .buy 1 := by
  have hprices : ∀ px ∈ ((stopsDeep.foldl apply (new (OrderBook.new 8)
      .fifoStack)).book.queues.ladder .sell).map Prod.fst, (stopsDeep.foldl apply
        (new (OrderBook.new 8) .fifoStack)).book.queues.ahead .volume .sell px < 2 →
          px = 100 := by decide +kernel
  have hstops : ∀ id, ∀ r ∈ (stopsDeep.foldl apply (new (OrderBook.new 8)
      .fifoStack)).book.stopSlot id, triggered 100 r.2 = true → r.1 = 5 := by decide +kernel
  have hside : ((stopsDeep.foldl apply (new (OrderBook.new 8)
      .fifoStack)).book.mem 5).side.opposite = .sell := by decide +kernel
  have hqty : ((stopsDeep.foldl apply (new (OrderBook.new 8)
      .fifoStack)).book.mem 5).qty = 1 := by decide +kernel
  have hpolicy : (stopsDeep.foldl apply (new (OrderBook.new 8) .fifoStack)).policy =
      .fifoStack := rfl
  generalize stopsDeep.foldl apply (new (OrderBook.new 8) .fifoStack) = e at *
  have hpx {px : Int} (hq : e.book.queues.Quotes .sell px)
      (hlt : e.book.queues.ahead .volume .sell px < 2) : px = 100 :=
    hprices px (Queue.Book.quotes_iff_mem.mp hq) hlt
  have hmeets {o : Ptr} (h : meets e.book 100 o) : o = 5 := by
    obtain ⟨id, x, hx, ht⟩ := h
    exact hstops id (o, x) hx ht
  have hreach {l : List Ptr} {o : Ptr} {px : Int}
      (hb : Trigger.Before (meets e.book) 100 e.waiting l o) (hall : ∀ a ∈ o :: l, a = 5)
      (h : e.reach .buy 1 100 l o px) : px = 100 := by
    obtain rfl := hall o List.mem_cons_self
    obtain rfl : l = [] := List.eq_nil_iff_forall_not_mem.mpr fun a ha =>
      (List.nodup_cons.mp hb.nodup).1 (hall a (List.mem_cons_of_mem 5 ha) ▸ ha)
    obtain ⟨_, hquoted, hahead, _⟩ := h
    have hlt := hahead .volume (Or.inl (by rw [hpolicy]; rfl))
    rw [hpolicy, hqty, hside] at hlt
    rw [hside] at hquoted
    rcases hquoted with ⟨hq, _⟩ | ⟨o, ho, _⟩
    · exact hpx hq hlt
    · exact absurd ho List.not_mem_nil
  have hawake {A : Set Ptr} {o : Ptr} (h : Trigger.Awake (meets e.book) (e.reach .buy 1 100) 100
      e.waiting A o) : o = 5 := by
    induction h with
    | first a _ hm => exact hmeets hm
    | later a x l p _ hb _ hr hm ih => exact hmeets (hreach hb ih hr ▸ hm)
  intro p hp o _ hover
  obtain rfl : p = 100 := by
    obtain ⟨hq, hlt⟩ := hp.2.1
    rw [hpolicy] at hlt
    exact hpx hq (Nat.lt_succ_of_lt hlt)
  obtain ⟨_, p', hnot, x, _, _, _, _, _, ⟨l, hb, hall, hr⟩, hm⟩ := hover
  exact hnot (hreach hb (fun a ha => hawake (hall a ha)) hr ▸ hm)

/-- Two resting offers and two buy stops, the lower one first. -/
def stopsBehind : List Call :=
  [.limit .sell 100 1 0, .limit .sell 105 1 0, .stop .buy 100 1 .stopMarket 0 0,
    .stop .buy 103 1 .stopMarket 0 0]

end MatchingEngine

end Lob
