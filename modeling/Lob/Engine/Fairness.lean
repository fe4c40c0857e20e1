import Lob.Engine.Completeness

/-!
# The order of activations

A nested pass runs to its end before the outer one goes on, so it may activate a stop
ahead of stops that an earlier trade has triggered. And the pending stops are a list
whose entries outlive the stops, so a pass need not find them in submission order. From
the book and the pending stops it can be told before a call that neither comes about.
-/

namespace Lob

namespace MatchingEngine

open Config

/-- The activations of a call are in turn. -/
structure Fair (e e' : MatchingEngine) : Prop where
  /-- One pass activates stops in submission order. -/
  turns : ((e'.log.drop e.log.length).filterMap Event.activation).Pairwise fun a c =>
    a.pass = c.pass → a.id < c.id
  /-- What a trade triggers is activated before what only later trades trigger. -/
  prompt : ∀ l₁ p l₂, (e'.log.drop e.log.length).filterMap Event.traded = l₁ ++ p :: l₂ →
    ∀ m₁ c m₂, (e'.log.drop e.log.length).filterMap Event.activation = m₁ ++ c :: m₂ →
      (∀ r ∈ e.book.stopSlot c.id, ∀ q ∈ l₁ ++ [p], triggered q r.2 = false) →
        ∀ id, ∀ r ∈ e.book.stopSlot id, triggered p r.2 = true → ∃ a ∈ m₁, a.id = id

/-- A stop may be missed only when its price leaves nothing to activate, no stop may be overtaken,
and stops that one pass may activate are pending in submission order. -/
structure Orderly (e : MatchingEngine) (side : Side) (qty : Qty) : Prop where
  excused : ∀ p, e.Ends side qty p → ∀ o ∈ e.waiting.armed,
    Trigger.Excuses (meets e.book) (e.reach side qty p) p e.waiting o
  spared : ∀ p, e.Ends side qty p → ∀ a ∈ e.waiting.armed, ∀ o ∈ e.waiting.armed,
    ¬ Trigger.Overtakes (meets e.book) (e.reach side qty p) p e.waiting a o
  sorted : ∀ p, e.Ends side qty p → ∀ a ∈ e.waiting.armed, ∀ o ∈ e.waiting.armed,
    Trigger.Ahead e.waiting.pending a o →
      Trigger.Together (meets e.book) (e.reach side qty p) p e.waiting a o →
        (e.book.mem a).orderId < (e.book.mem o).orderId

variable {e : MatchingEngine} {side : Side} {qty : Qty} {capacity : Nat} {mode : AllocMode}
  {policy : MatchingPolicy} {c : Config} {a : Activation}

/-- An activation names a stop that was registered before the call. -/
theorem stopSlot_of_activation (hin : Within e.book e.log.length c)
    (ha : a ∈ (c.engine.log.drop e.log.length).filterMap Event.activation) :
    ∃ x, e.book.stopSlot a.id = some ((a.task e.book).slot, x) := by
  obtain ⟨v, hv, hva⟩ := List.mem_filterMap.mp ha
  cases v <;> simp only [Event.activation, reduceCtorEq, Option.some.injEq] at hva
  subst hva
  obtain ⟨⟨o, x⟩, hx⟩ := (hin.fired _ _ _ hv).2
  refine ⟨x, ?_⟩
  rw [hx, Activation.task, (OrderBook.stopSlot_eq_some.mp hx).1]
  rfl

/-- The entries that have fired are those of the activations. -/
theorem fired_eq (e : MatchingEngine) (c : Config) : (Config.abs e.book e.log.length c).fired =
    ((c.engine.log.drop e.log.length).filterMap Event.activation).map
      (Activation.task e.book) := by
  rw [List.map_filterMap]
  rfl

/-- Where nothing is activated, nothing is out of turn. -/
theorem Fair.of_quiet {e' : MatchingEngine}
    (h : (e'.log.drop e.log.length).filterMap Event.activation = []) : Fair e e' := by
  refine ⟨?_, fun l₁ p l₂ _ m₁ c m₂ hm => ?_⟩
  · rw [h]
    exact List.Pairwise.nil
  · rw [h] at hm
    exact absurd hm.symm (List.append_ne_nil_of_right_ne_nil _ (List.cons_ne_nil _ _))

/-- Entries that fire in the order of their stops are activations in the order of their ids. -/
theorem turns_of_fired (hw : e.book.WellFormed) (hin : Within e.book e.log.length c)
    (h : (Config.abs e.book e.log.length c).fired.Pairwise fun t u => t.pass = u.pass →
      (e.book.mem t.slot).orderId < (e.book.mem u.slot).orderId) :
    ((c.engine.log.drop e.log.length).filterMap Event.activation).Pairwise fun a c =>
      a.pass = c.pass → a.id < c.id := by
  have hid {a : Activation}
      (ha : a ∈ (c.engine.log.drop e.log.length).filterMap Event.activation) :
      (e.book.mem (a.task e.book).slot).orderId = a.id := by
    obtain ⟨x, hx⟩ := stopSlot_of_activation hin ha
    exact (hw.table _ _ (OrderBook.stopSlot_eq_some.mp hx).1).1
  rw [fired_eq, List.pairwise_map] at h
  refine h.imp_of_mem fun {a c} ha hc hturn hpass => ?_
  have hlt : (e.book.mem (a.task e.book).slot).orderId <
    (e.book.mem (c.task e.book).slot).orderId := hturn hpass
  rwa [hid ha, hid hc] at hlt

/-- What fires in time is activated in time. -/
theorem prompt_of_fired (hw : e.book.WellFormed) (hin : Within e.book e.log.length c)
    (h : (Config.abs e.book e.log.length c).Prompt (meets e.book) e.waiting)
    {l₁ l₂ : List Int} {p : Int} {m₁ m₂ : List Activation}
    (htraded : (c.engine.log.drop e.log.length).filterMap Event.traded = l₁ ++ p :: l₂)
    (hacts : (c.engine.log.drop e.log.length).filterMap Event.activation = m₁ ++ a :: m₂)
    (hnone : ∀ r ∈ e.book.stopSlot a.id, ∀ q ∈ l₁ ++ [p], triggered q r.2 = false) {id : Nat}
    {r : Ptr × Order} (hr : r ∈ e.book.stopSlot id) (ht : triggered p r.2 = true) :
    ∃ a ∈ m₁, a.id = id := by
  have hfired : (Config.abs e.book e.log.length c).fired = m₁.map (Activation.task e.book) ++
      a.task e.book :: m₂.map (Activation.task e.book) := by
    rw [fired_eq, hacts, List.map_append, List.map_cons]
  obtain ⟨y, hy⟩ := stopSlot_of_activation hin (a := a) (by
    rw [hacts]
    exact List.mem_append_right _ List.mem_cons_self)
  have hnot : ∀ q ∈ l₁ ++ [p], ¬ meets e.book q (a.task e.book).slot := by
    rintro q hq ⟨j, z, hz, htz⟩
    have hid := (stopSlot_inj hw hy hz).1
    rw [← hid] at hz
    exact Bool.false_ne_true ((hnone _ hz q hq).symm.trans htz)
  obtain ⟨f, hf, hfr⟩ := h l₁ p l₂ htraded _ _ _ hfired hnot r.1 ⟨id, r.2, hr⟩ ⟨id, r.2, hr, ht⟩
  obtain ⟨b, hb, rfl⟩ := List.mem_map.mp hf
  obtain ⟨x, hx⟩ := stopSlot_of_activation hin (a := b) (by
    rw [hacts]
    exact List.mem_append_left _ hb)
  rw [hfr] at hx
  exact ⟨b, hb, (stopSlot_inj hw hx hr).1⟩

/-- Two resting offers, and two buy stops of which the nested pass activates the first. -/
def stopsInTurn : List Call :=
  [.limit .sell 100 1 0, .limit .sell 105 1 0, .stop .buy 104 1 .stopLimit 50 0,
    .stop .buy 100 1 .stopMarket 0 0]

/-- The stop that the first price does not trigger stands first, and nothing behind the other. -/
theorem orderly_inTurn :
    Orderly (stopsInTurn.foldl apply (new (OrderBook.new 8) .fifoStack)) .buy 1 := by
  have hprices : ∀ px ∈ ((stopsInTurn.foldl apply (new (OrderBook.new 8)
      .fifoStack)).book.queues.ladder .sell).map Prod.fst, (stopsInTurn.foldl apply
        (new (OrderBook.new 8) .fifoStack)).book.queues.ahead .volume .sell px < 1 →
          px = 100 := by decide +kernel
  have hstops : ∀ id, ∀ r ∈ (stopsInTurn.foldl apply (new (OrderBook.new 8)
      .fifoStack)).book.stopSlot id, r.1 = 5 ∨ r.1 = 4 ∧ triggered 100 r.2 = true := by
    decide +kernel
  have hpending : (stopsInTurn.foldl apply (new (OrderBook.new 8)
      .fifoStack)).waiting.pending = [5, 4, 5, 4] := by decide +kernel
  have hids : ((stopsInTurn.foldl apply (new (OrderBook.new 8) .fifoStack)).book.mem 5).orderId <
      ((stopsInTurn.foldl apply (new (OrderBook.new 8) .fifoStack)).book.mem 4).orderId := by
    decide +kernel
  have hpolicy : (stopsInTurn.foldl apply (new (OrderBook.new 8) .fifoStack)).policy =
      .fifoStack := rfl
  generalize stopsInTurn.foldl apply (new (OrderBook.new 8) .fifoStack) = e at *
  have hends {p : Int} (hp : e.Ends .buy 1 p) : p = 100 := by
    obtain ⟨hq, hlt⟩ := hp.2.1
    rw [hpolicy] at hlt
    exact hprices p (Queue.Book.quotes_iff_mem.mp hq) hlt
  have hslot {o : Ptr} (ho : o ∈ e.waiting.armed) : o = 5 ∨ o = 4 ∧ meets e.book 100 o := by
    obtain ⟨id, x, hx⟩ := ho
    exact (hstops id (o, x) hx).imp_right fun h => ⟨h.1, id, x, hx, h.2⟩
  have hahead {a o : Ptr} (ho : o ∈ e.waiting.armed)
      (h : Trigger.Ahead e.waiting.pending a o) : a = 5 ∧ o = 4 := by
    rw [Trigger.ahead_iff, hpending] at h
    rcases hslot ho with rfl | ⟨rfl, _⟩
    · exact absurd h.2 List.not_mem_nil
    · exact ⟨List.mem_singleton.mp h.2, rfl⟩
  constructor
  · intro p hp o ho q q' hmiss
    obtain rfl := hends hp
    obtain ⟨hnot, x, hx, hxo, _⟩ := hmiss
    obtain ⟨-, rfl⟩ := hahead ho hxo
    rcases hslot ho with he | ⟨-, hm⟩
    · exact absurd he (by decide)
    · exact absurd hm hnot
  · intro p hp a ha o ho hover
    obtain ⟨_, x, hx, hax, hxo, _⟩ := hover
    have hfour := (hahead hx hax).2
    rw [(hahead ho hxo).1] at hfour
    exact absurd hfour (by decide)
  · intro p hp a ha o ho hao _
    obtain ⟨rfl, rfl⟩ := hahead ho hao
    exact hids

/-- Two resting offers, a buy stop that only the second price triggers, and two that the first
triggers. -/
def stopsOvertaken : List Call :=
  [.limit .sell 100 1 0, .limit .sell 105 1 0, .stop .buy 104 1 .stopLimit 50 0,
    .stop .buy 100 1 .stopMarket 0 0, .stop .buy 100 1 .stopLimit 50 0]

end MatchingEngine

end Lob
