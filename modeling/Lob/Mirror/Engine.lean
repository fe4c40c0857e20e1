import Lob.Mirror.Calls

/-!
# The mirrored engine

The calls of the engine do to the mirrored engine what they do to the engine.
The queue loop reads the sides of pending stops, and both lists of stops point to
named slots.
-/

namespace Lob

/-- The mirrored event. -/
def Event.mirror : Event → Event
  | .limit id side price qty display => .limit id side.opposite (-price) qty display
  | .market side qty fills => .market side.opposite qty (fills.map Fill.mirror)
  | .stop id side stopPrice qty stopType limitPrice display =>
    .stop id side.opposite (-stopPrice) qty stopType (-limitPrice) display
  | .cancel id => .cancel id
  | .trigger id last pass => .trigger id (-last) pass
  | .staleRead o => .staleRead o

namespace MatchingEngine

open OrderBook (KeepsNamed)

/-- The engine over the mirrored book, with the same list of stops. -/
def mirror (e : MatchingEngine) : MatchingEngine :=
  { e with book := e.book.mirror, log := e.log.map Event.mirror }

/-- The book and the list of stops point to named slots. -/
structure Closed (e : MatchingEngine) : Prop where
  book : e.book.Closed
  stops : ∀ o ∈ e.pendingStops, e.book.Named o

/-- Later in a run: the lists point to named slots and named slots are still named. -/
structure Leads (e e' : MatchingEngine) : Prop where
  closed : e'.Closed
  named : ∀ p, e.book.Named p → e'.book.Named p

variable {e e' e'' : MatchingEngine} {side : Side} {price stopPrice limitPrice last : Int}
  {qty display : Qty} {stopType : StopType} {id n pass : Nat} {o : Ptr} {x : Order}
  {b : OrderBook}

/-- Doing nothing leads to the same engine. -/
theorem Leads.refl (h : e.Closed) : Leads e e := ⟨h, fun _ hp => hp⟩

/-- What leads on can be chained. -/
theorem Leads.trans (h : Leads e e') (h' : Leads e' e'') : Leads e e'' :=
  ⟨h'.closed, fun p hp => h'.named p (h.named p hp)⟩

/-- A call on the book. -/
theorem Closed.leads (h : e.Closed) (hk : KeepsNamed e.book b) : Leads e { e with book := b } where
  closed := ⟨h.book.of_keepsNamed hk, fun o ho => hk.named o (h.stops o ho)⟩
  named := hk.named

/-- The log points nowhere. -/
theorem Leads.record {a : Event} (h : Leads e e') : Leads e (e'.record a) :=
  ⟨⟨h.closed.book, h.closed.stops⟩, h.named⟩

/-- A named slot joins the list of stops. -/
theorem Leads.addStop (h : Leads e e') (ho : e'.book.Named o) :
    Leads e { e' with pendingStops := e'.pendingStops ++ [o] } where
  closed := by
    refine ⟨h.closed.book, fun p hp => ?_⟩
    rcases List.mem_append.mp hp with hp | hp
    · exact h.closed.stops p hp
    · rw [List.mem_singleton.mp hp]
      exact ho
  named := h.named

/-- A mirrored event is logged. -/
theorem record_mirror {a : Event} : (e.record a).mirror = e.mirror.record a.mirror := by
  unfold record mirror
  rw [List.map_append]
  rfl

/-- The trigger condition of the mirrored stop at the mirrored price. -/
theorem triggered_mirror (h : x.orderId ≠ 0) :
    triggered (-last) x.mirror = triggered last x := by
  have hstop : x.mirror.stopPrice = -x.stopPrice := rfl
  unfold triggered
  rw [Order.side_mirror h, hstop]
  cases x.side with
  | buy =>
    simp only [Side.opposite, decide_eq_decide]
    omega
  | sell =>
    simp only [Side.opposite, decide_eq_decide]
    omega

/-- `submit_limit` adds and configures an order. -/
theorem leads_submitLimit (h : e.Closed) : Leads e (e.submitLimit side price qty display).2 := by
  have hadd : KeepsNamed e.book (e.book.addLimitOrder side price qty).2 :=
    OrderBook.keepsNamed_addLimitOrder h.book.next
  unfold submitLimit
  refine Leads.record (h.leads ?_)
  split
  · exact hadd.trans OrderBook.keepsNamed_configureIceberg
  · exact hadd

/-- `submit_limit` accepts the mirrored order under the same id. -/
theorem submitLimit_mirror (h : e.Closed) :
    e.mirror.submitLimit side.opposite (-price) qty display =
      ((e.submitLimit side price qty display).1,
        (e.submitLimit side price qty display).2.mirror) := by
  have hbook : e.mirror.book = e.book.mirror := rfl
  unfold submitLimit
  rw [hbook, OrderBook.addLimitOrder_mirror h.book]
  dsimp only
  rw [OrderBook.configureIceberg_mirror
    (h.book.of_keepsNamed (OrderBook.keepsNamed_addLimitOrder h.book.next)), record_mirror]
  split
  · rfl
  · rfl

/-- `submit_stop` lists the slot it has named. -/
theorem leads_submitStop (h : e.Closed) :
    Leads e (e.submitStop side stopPrice qty stopType limitPrice display).2 := by
  have hadd : KeepsNamed e.book
      (e.book.addPendingStop side stopPrice qty stopType limitPrice display).2 :=
    OrderBook.keepsNamed_addPendingStop h.book.next
  have hlead := h.leads hadd
  unfold submitStop
  dsimp only
  split
  · exact hlead.record
  · split
    · next o hf => exact hlead.record.addStop (hlead.closed.book.slots _ o hf)
    · exact hlead.record

/-- `submit_stop` accepts the mirrored stop under the same id. -/
theorem submitStop_mirror (h : e.Closed) :
    e.mirror.submitStop side.opposite (-stopPrice) qty stopType (-limitPrice) display =
      ((e.submitStop side stopPrice qty stopType limitPrice display).1,
        (e.submitStop side stopPrice qty stopType limitPrice display).2.mirror) := by
  have hbook : e.mirror.book = e.book.mirror := rfl
  unfold submitStop
  rw [hbook, OrderBook.addPendingStop_mirror h.book]
  dsimp only
  generalize e.book.addPendingStop side stopPrice qty stopType limitPrice display = r
  have hrec : ({ e.mirror with book := r.2.mirror } : MatchingEngine).record
      (.stop r.1 side.opposite (-stopPrice) qty stopType (-limitPrice) display) =
      (({ e with book := r.2 } : MatchingEngine).record
        (.stop r.1 side stopPrice qty stopType limitPrice display)).mirror := by
    rw [record_mirror]
    rfl
  have hfind : (({ e with book := r.2 } : MatchingEngine).record
      (.stop r.1 side stopPrice qty stopType limitPrice display)).mirror.book.findId r.1 =
      (({ e with book := r.2 } : MatchingEngine).record
        (.stop r.1 side stopPrice qty stopType limitPrice display)).book.findId r.1 := rfl
  rw [hrec, hfind]
  split
  · rfl
  · split
    · rfl
    · rfl

/-- A detached stop keeps its name. -/
theorem leads_detach (h : e.Closed) : Leads e (e.detach o).2 := by
  have hdetach : KeepsNamed e.book (e.book.detachPending (e.book.mem o).orderId).2 :=
    OrderBook.keepsNamed_detachPending
  unfold detach
  dsimp only
  split
  · exact h.leads hdetach
  · exact h.leads (hdetach.trans KeepsNamed.deallocate)

/-- The stop with an id is found and taken out alike. -/
theorem detachPending_mirror : e.book.mirror.detachPending id =
    ((e.book.detachPending id).1, (e.book.detachPending id).2.mirror) := by
  unfold OrderBook.detachPending
  have hfind : ({ e.book.mirror with
      pendingStopStorage := e.book.mirror.pendingStopStorage.eraseP fun o =>
        (e.book.mirror.mem o).orderId = id } : OrderBook).findId id = e.book.findId id := rfl
  have hfind' : ({ e.book with
      pendingStopStorage := e.book.pendingStopStorage.eraseP fun o =>
        (e.book.mem o).orderId = id } : OrderBook).findId id = e.book.findId id := rfl
  dsimp only
  rw [hfind, hfind']
  cases e.book.findId id with
  | none => rfl
  | some o =>
    refine Prod.ext rfl ?_
    dsimp only
    rw [OrderBook.dropId_mirror]
    rfl

/-- The copy of a detached stop is mirrored. -/
theorem detach_mirror :
    e.mirror.detach o = ((e.detach o).1.map Order.mirror, (e.detach o).2.mirror) := by
  have hbook : e.mirror.book = e.book.mirror := rfl
  have hid : (e.book.mirror.mem o).orderId = (e.book.mem o).orderId := rfl
  unfold detach
  rw [hbook, hid, detachPending_mirror]
  generalize e.book.detachPending (e.book.mem o).orderId = r
  obtain ⟨d, b⟩ := r
  cases d with
  | none => rfl
  | some d => rfl

section Entries

/-- What a nested `submit_market` does: the mirrored call mirrors it, and it keeps the lists. -/
def Mirrors (submit : MatchingEngine → Side → Qty → Option MatchingEngine) : Prop :=
  ∀ e side qty, e.Closed →
    submit e.mirror side.opposite qty = (submit e side qty).map mirror ∧
      ∀ e', submit e side qty = some e' → Leads e e'

variable {submit : MatchingEngine → Side → Qty → Option MatchingEngine}

/-- What is done with a detached stop, mirrored. -/
theorem detached_mirror {k k' : Order → MatchingEngine → Option MatchingEngine} (h : e.Closed)
    (hk : ∀ d e₁, e₁.Closed → k' d.mirror e₁.mirror = (k d e₁).map mirror) :
    (match e.mirror.detach o with
      | (none, e) => some e
      | (some d, e) => k' d e) =
    (match e.detach o with
      | (none, e) => some e
      | (some d, e) => k d e).map mirror := by
  have hlead : Leads e (e.detach o).2 := leads_detach h
  rw [detach_mirror]
  generalize e.detach o = r at hlead
  obtain ⟨d, e'⟩ := r
  cases d with
  | none => rfl
  | some d => exact hk d e' hlead.closed

/-- What follows on a detached stop, found or not. -/
theorem leads_detached {k : Order → MatchingEngine → Option MatchingEngine} (h : e.Closed)
    (hk : ∀ d e₁ e₂, e₁.Closed → k d e₁ = some e₂ → Leads e₁ e₂)
    (hv : (match e.detach o with
      | (none, e) => some e
      | (some d, e) => k d e) = some e') : Leads e e' := by
  have hlead : Leads e (e.detach o).2 := leads_detach h
  split at hv
  · next e₁ hd =>
    rw [hd, Option.some.inj hv] at hlead
    exact hlead
  · next d e₁ hd =>
    rw [hd] at hlead
    exact hlead.trans (hk d e₁ e' hlead.closed hv)

/-- A triggered stop is executed mirrored, and another one put back. -/
theorem visit_mirror (hs : Mirrors submit) (h : e.Closed) (ho : e.book.Named o) :
    Branches.visit submit (-last) pass e.mirror o =
      (Branches.visit submit last pass e o).map mirror := by
  have hmem : e.mirror.book.mem o = (e.book.mem o).mirror := rfl
  have hstop : (e.book.mem o).mirror.stopType = (e.book.mem o).stopType := rfl
  have hrec (d : Order) (e₁ : MatchingEngine) : (e₁.record (.trigger d.orderId last pass)).mirror =
      e₁.mirror.record (.trigger d.orderId (-last) pass) := record_mirror
  unfold Branches.visit
  dsimp only
  rw [hmem, hstop, triggered_mirror ho, Order.side_mirror ho]
  cases (e.book.mem o).stopType with
  | none => rfl
  | stopMarket =>
    dsimp only
    split
    · refine detached_mirror h fun d e₁ hc => ?_
      have hsub := (hs _ (e.book.mem o).side d.qty
        ((Leads.refl hc).record (a := .trigger d.orderId last pass)).closed).1
      rw [hrec] at hsub
      exact hsub
    · rfl
  | stopLimit =>
    dsimp only
    split
    · refine detached_mirror h fun d e₁ hc => ?_
      have hclosed := ((Leads.refl hc).record (a := .trigger d.orderId last pass)).closed
      have hlimit : (e₁.record (.trigger d.orderId last pass)).mirror.submitLimit
          (e.book.mem o).side.opposite (-d.price) d.qty d.displayQty = _ :=
        submitLimit_mirror hclosed
      rw [hrec] at hlimit
      exact congrArg (fun r : Nat × MatchingEngine => some r.2) hlimit
    · rfl

/-- Visiting a stop leads on, whatever becomes of it. -/
theorem leads_visit (hs : Mirrors submit) (h : e.Closed) (ho : e.book.Named o)
    (hv : Branches.visit submit last pass e o = some e') : Leads e e' := by
  unfold Branches.visit at hv
  dsimp only at hv
  split at hv
  · rw [← Option.some.inj hv]
    exact Leads.refl h
  · split at hv
    · refine leads_detached h (fun d e₁ e₂ hc hk => ?_) hv
      have hrec := (Leads.refl hc).record (a := .trigger d.orderId last pass)
      exact hrec.trans ((hs _ _ _ hrec.closed).2 e₂ hk)
    · rw [← Option.some.inj hv]
      exact (Leads.refl h).addStop ho
  · split at hv
    · refine leads_detached h (fun d e₁ e₂ hc hk => ?_) hv
      have hrec := (Leads.refl hc).record (a := .trigger d.orderId last pass)
      rw [← Option.some.inj hk]
      exact hrec.trans (leads_submitLimit hrec.closed)
    · rw [← Option.some.inj hv]
      exact (Leads.refl h).addStop ho

/-- A stale read is noted in both histories. -/
theorem triggerEntry_mirror (last : Int) (pass : Nat) (hs : Mirrors submit) (h : e.Closed)
    (ho : e.book.Named o) :
    Branches.triggerEntry submit (-last) pass e.mirror o =
        (Branches.triggerEntry submit last pass e o).map mirror ∧
      ∀ e', Branches.triggerEntry submit last pass e o = some e' → Leads e e' := by
  have hpend : pendingStop e.mirror.book o = pendingStop e.book o := rfl
  have hrec : (e.record (.staleRead o)).mirror = e.mirror.record (.staleRead o) := record_mirror
  have hlead : Leads e (e.record (.staleRead o)) := (Leads.refl h).record
  unfold Branches.triggerEntry
  rw [hpend, ← hrec]
  split
  · exact ⟨visit_mirror hs h ho, fun e' => leads_visit hs h ho⟩
  · exact ⟨visit_mirror hs hlead.closed ho, fun e' hv =>
      hlead.trans (leads_visit hs hlead.closed ho hv)⟩

/-- The loop over a queue of named slots. -/
theorem foldlM_mirror (last : Int) (pass : Nat) (hs : Mirrors submit) (q : List Ptr)
    (h : e.Closed) (hq : ∀ o ∈ q, e.book.Named o) :
    q.foldlM (Branches.triggerEntry submit (-last) pass) e.mirror =
        (q.foldlM (Branches.triggerEntry submit last pass) e).map mirror ∧
      ∀ e', q.foldlM (Branches.triggerEntry submit last pass) e = some e' → Leads e e' := by
  induction q generalizing e with
  | nil =>
    refine ⟨rfl, fun e' he => ?_⟩
    rw [← Option.some.inj he]
    exact Leads.refl h
  | cons o q ih =>
    obtain ⟨hmirror, hleads⟩ := triggerEntry_mirror last pass hs h
      (hq o List.mem_cons_self)
    rw [List.foldlM_cons, List.foldlM_cons, hmirror]
    cases ht : Branches.triggerEntry submit last pass e o with
    | none => exact ⟨rfl, fun e' he => by contradiction⟩
    | some e₁ =>
      have hlead := hleads e₁ ht
      obtain ⟨hrest, hleads'⟩ := ih hlead.closed fun p hp =>
        hlead.named p (hq p (List.mem_cons_of_mem o hp))
      exact ⟨hrest, fun e' he => hlead.trans (hleads' e' he)⟩

/-- A trigger pass at the negated price, over the same slots. -/
theorem processTriggers_mirror (last : Int) (hs : Mirrors submit) (h : e.Closed) :
    Branches.processTriggers submit e.mirror (-last) =
        (Branches.processTriggers submit e last).map mirror ∧
      ∀ e', Branches.processTriggers submit e last = some e' → Leads e e' := by
  have htake : Leads e { e with book := e.book.takePendingStops.2, pendingStops := [] } := by
    have hk : KeepsNamed e.book e.book.takePendingStops.2 :=
      KeepsNamed.withStorage fun p hp => by contradiction
    exact ⟨⟨(h.leads hk).closed.book, fun o ho => by contradiction⟩, hk.named⟩
  have hq : ∀ o ∈ e.pendingStops ++ e.book.pendingStopStorage,
      (e.book.takePendingStops.2).Named o := by
    intro o ho
    refine htake.named o ?_
    rcases List.mem_append.mp ho with ho | ho
    · exact h.stops o ho
    · exact h.book.storage o ho
  have hlen : e.mirror.log.length = e.log.length := List.length_map _
  obtain ⟨hmirror, hleads⟩ := foldlM_mirror last e.log.length hs _ htake.closed hq
  unfold Branches.processTriggers
  rw [hlen]
  exact ⟨hmirror, fun e' he => htake.trans (hleads e' he)⟩

end Entries

/-- A market order and everything it triggers. -/
theorem submitMarket_mirror (n : Nat) (h : e.Closed) (side : Side) (qty : Qty) :
    Branches.submitMarket n e.mirror side.opposite qty =
        (Branches.submitMarket n e side qty).map (fun r => (r.1.map Fill.mirror, r.2.mirror)) ∧
      ∀ r, Branches.submitMarket n e side qty = some r → Leads e r.2 := by
  induction n generalizing e side qty with
  | zero => exact ⟨rfl, fun r hr => by contradiction⟩
  | succ n ih =>
    have hs : Mirrors fun e side qty => (Branches.submitMarket n e side qty).map Prod.snd := by
      intro e side qty h
      obtain ⟨hmirror, hleads⟩ := ih h side qty
      dsimp only
      rw [hmirror]
      cases hr : Branches.submitMarket n e side qty with
      | none => exact ⟨rfl, fun e' he => by contradiction⟩
      | some r =>
        refine ⟨rfl, fun e' he => ?_⟩
        rw [← Option.some.inj he]
        exact hleads r hr
    have hbook : e.mirror.book = e.book.mirror := rfl
    have hpolicy : e.mirror.policy = e.policy := rfl
    unfold Branches.submitMarket
    rw [hbook, hpolicy, OrderBook.run_mirror e.policy h.book]
    cases hr : OrderBook.Branches.run n e.policy e.book side qty with
    | none => exact ⟨rfl, fun r hr => by contradiction⟩
    | some r =>
      obtain ⟨fills, book⟩ := r
      have hlead : Leads e (({ e with book } : MatchingEngine).record
          (.market side qty fills)) := (h.leads (OrderBook.keepsNamed_run _ hr)).record
      have hrec : (⟨book.mirror, e.policy, e.mirror.pendingStops, e.mirror.log⟩ :
          MatchingEngine).record (.market side.opposite qty (fills.map Fill.mirror)) =
          (({ e with book } : MatchingEngine).record (.market side qty fills)).mirror := by
        rw [record_mirror]
        rfl
      dsimp only [Option.map_some]
      rw [List.getLast?_map, hrec]
      generalize MatchingEngine.record _ _ = e₁ at hlead
      cases fills.getLast? with
      | none =>
        refine ⟨rfl, fun r hr => ?_⟩
        rw [← Option.some.inj hr]
        exact hlead
      | some f =>
        obtain ⟨hmirror, hleads⟩ := processTriggers_mirror f.price hs hlead.closed
        have hprice : f.mirror.price = -f.price := rfl
        dsimp only [Option.map_some]
        rw [hprice, hmirror, Option.map_map, Option.map_map]
        refine ⟨rfl, fun r hr => ?_⟩
        obtain ⟨e', he, hr⟩ := Option.map_eq_some_iff.mp hr
        rw [← hr]
        exact hlead.trans (hleads e' he)

end MatchingEngine

end Lob

