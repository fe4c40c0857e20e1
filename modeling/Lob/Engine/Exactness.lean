import Lob.Engine.Runs

/-!
# When the pending list is exact

`submit_stop` puts a stop on two lists and `process_triggers` pours both into one
queue, so the first pass after a submission handles the stop twice: it is requeued
twice, or its second entry is read after the stop has been freed. The list is exact
as long as no market order trades while the book's list holds a stop.
-/

namespace Lob

namespace MatchingEngine

open Config

/-- Each registered stop is listed once, every listed slot holds a registered stop, and no slot
was read after it had been freed. -/
structure Exact (e : MatchingEngine) : Prop where
  once : ∀ id, ∀ r ∈ e.book.stopSlot id, e.pendingStops.count r.1 = 1
  live : ∀ o ∈ e.pendingStops, ∃ id x, e.book.stopSlot id = some (o, x)
  fresh : ∀ o, .staleRead o ∉ e.log

/-- No market order trades while the book's list of stops holds one. -/
def Undisturbed (e : MatchingEngine) : Call → Prop
  | .market side qty => e.book.pendingStopStorage = [] ∨ ¬ e.policy.Trades e.book side qty
  | _ => True

instance (e : MatchingEngine) : (a : Call) → Decidable (e.Undisturbed a)
  | .market side qty => inferInstanceAs
      (Decidable (e.book.pendingStopStorage = [] ∨ ¬ e.policy.Trades e.book side qty))
  | .limit .. | .stop .. | .cancel _ => isTrue trivial

/-- The states of runs in which no trade disturbs the lists of stops. -/
def ReachableUndisturbed (capacity : Nat) (mode : AllocMode) (policy : MatchingPolicy) :
    MatchingEngine → Prop :=
  Run.Reach apply (fun e a => e.Admissible a ∧ e.Undisturbed a)
    (new (OrderBook.new capacity mode) policy)

variable {e : MatchingEngine} {side : Side} {price stopPrice limitPrice : Int} {qty display : Qty}
  {stopType : StopType} {id : Nat} {o : Ptr} {capacity : Nat} {mode : AllocMode}
  {policy : MatchingPolicy}

/-- What holds along undisturbed runs: the two lists are the same list. -/
structure Doubled (e : MatchingEngine) : Prop where
  settled : e.Settled
  exact : e.Exact
  lists : e.book.pendingStopStorage = e.pendingStops

/-- Exactness depends on the stops, the list and the stale reads. -/
theorem Exact.of_eq {e' : MatchingEngine} (h : e.Exact)
    (hs : e'.book.stopSlot = e.book.stopSlot) (hp : e'.pendingStops = e.pendingStops)
    (hlog : ∀ o, .staleRead o ∈ e'.log → .staleRead o ∈ e.log) : e'.Exact where
  once id r hr := by
    rw [hs] at hr
    rw [hp]
    exact h.once id r hr
  live o ho := by
    rw [hp] at ho
    rw [hs]
    exact h.live o ho
  fresh o ho := h.fresh o (hlog o ho)

/-- An engine without stops holds none twice. -/
theorem doubled_new (capacity : Nat) (mode : AllocMode) (policy : MatchingPolicy) :
    (new (OrderBook.new capacity mode) policy).Doubled where
  settled := settled_new capacity mode policy
  exact := by
    refine ⟨?_, fun o ho => ?_, fun o ho => ?_⟩
    · rintro id ⟨o, x⟩ hx
      obtain ⟨hf, _⟩ := OrderBook.stopSlot_eq_some.mp hx
      simp [new, OrderBook.findId_new] at hf
    · simp [new] at ho
    · simp [new] at ho
  lists := rfl

/-- A submitted stop is appended to both lists. -/
theorem Doubled.stop (h : e.Doubled) (hst : stopType ≠ .none) :
    (e.submitStop side stopPrice qty stopType limitPrice display).2.Doubled := by
  have hsettled := h.settled.stop hst side stopPrice qty limitPrice display
  cases ha : e.book.pool.allocate with
  | none =>
    rw [submitStop_full ha] at hsettled ⊢
    exact ⟨hsettled, h.exact.of_eq rfl rfl (by simp), h.lists⟩
  | some r =>
    obtain ⟨o, pool⟩ := r
    have hw := h.settled.wf
    have hslot := OrderBook.addPendingStop_stopSlot ha hw hst side stopPrice qty limitPrice display
    have hstorage : (e.book.addPendingStop side stopPrice qty stopType limitPrice
        display).2.pendingStopStorage = e.book.pendingStopStorage ++ [o] := by
      rw [OrderBook.addPendingStop_eq ha]
    have hfresh : o ∉ e.pendingStops := by
      intro ho
      obtain ⟨id, x, hx⟩ := h.exact.live o ho
      exact (hw.pool.allocate ha).1 ⟨id, (OrderBook.stopSlot_eq_some.mp hx).1⟩
    rw [submitStop_eq ha hw hst] at hsettled ⊢
    refine ⟨hsettled, ⟨?_, ?_, ?_⟩, ?_⟩
    · rintro j ⟨p, x⟩ hx
      simp only [book_record, hslot, Option.mem_def] at hx
      simp only [pendingStops_record, List.count_append]
      split at hx
      · simp only [Option.some.injEq, Prod.mk.injEq] at hx
        rw [← hx.1, List.count_eq_zero.mpr hfresh, List.count_singleton_self]
      · have hp := h.settled.held j p x hx
        have hne : p ≠ o := fun he => hfresh (he ▸ hp)
        rw [h.exact.once j (p, x) hx, List.count_singleton, if_neg (by simpa using hne.symm)]
    · intro p hp
      simp only [pendingStops_record, List.mem_append, List.mem_singleton] at hp
      simp only [book_record, hslot]
      rcases hp with hp | rfl
      · obtain ⟨j, x, hx⟩ := h.exact.live p hp
        have hlt := hw.id_lt (OrderBook.stopSlot_eq_some.mp hx).1
        exact ⟨j, x, by rw [if_neg (Nat.ne_of_lt hlt), hx]⟩
      · exact ⟨e.book.nextOrderId, _, if_pos rfl⟩
    · intro p hp
      simp only [log_record, List.mem_append, List.mem_singleton, reduceCtorEq, or_false] at hp
      exact h.exact.fresh p hp
    · simp only [book_record, pendingStops_record, hstorage, h.lists]

/-- Without stops on the book's list, a pass has an empty queue. -/
theorem Doubled.market (h : e.Doubled) (ha : e.Undisturbed (.market side qty)) :
    (e.submitMarket side qty).2.Doubled := by
  have hw := h.settled.wf
  have hm := matched_refines hw side qty
  have hsettled := h.settled.market side qty
  have hmatched : (e.matched side qty).Exact :=
    h.exact.of_eq hm.stops rfl fun o ho => by
      simpa [matched] using ho
  rcases h.settled.filed.market_storage side qty with ⟨_, heq⟩ | ⟨⟨p, hp⟩, _⟩
  · rw [heq] at hsettled ⊢
    exact ⟨hsettled, hmatched, hm.storage.trans h.lists⟩
  · have htrades : e.policy.Trades e.book side qty := by
      by_contra hn
      rw [(lastPrice_eq_none hw).mpr hn] at hp
      contradiction
    have hst : e.book.pendingStopStorage = [] := ha.resolve_right fun hn => hn htrades
    have hnil : e.pendingStops = [] := h.lists.symm.trans hst
    have hsteps := (h.settled.market_steps side qty).1
    rw [launch_some hp] at hsteps
    have htasks : (Config.begin (e.matched side qty) p []).tasks = [] := by
      have hstm : (e.matched side qty).book.pendingStopStorage = [] := hm.storage.trans hst
      have hpm : (e.matched side qty).pendingStops = [] := hnil
      simp only [Config.begin, hstm, hpm, List.append_nil, List.map_nil]
    have hend : (e.submitMarket side qty).2 = (Config.begin (e.matched side qty) p []).engine :=
      congrArg Config.engine (Steps.of_nil hsteps htasks)
    rw [hend] at hsettled ⊢
    exact ⟨hsettled, hmatched.of_eq rfl hnil.symm fun o ho => ho, rfl⟩

/-- An undisturbed call keeps every stop in both lists. -/
theorem Doubled.apply (h : e.Doubled) (a : Call) (ha : e.Admissible a) (hu : e.Undisturbed a) :
    (e.apply a).Doubled := by
  cases a with
  | limit side price qty display =>
    have hr := (submitLimit_refines h.settled.wf side price qty display).2
    refine ⟨h.settled.apply (.limit side price qty display) ha, h.exact.of_eq hr.stops rfl ?_,
      hr.storage.trans h.lists⟩
    exact fun o ho => by simpa [MatchingEngine.apply] using ho
  | market side qty => exact h.market hu
  | stop side stopPrice qty stopType limitPrice display => exact h.stop ha
  | cancel id =>
    have hr := cancelOrder_refines h.settled.wf ha
    have hp : (e.cancelOrder id).2.pendingStops = e.pendingStops := cancelOrder_pendingStops
    refine ⟨h.settled.apply (.cancel id) ha, h.exact.of_eq hr.stops hp ?_,
      (hr.storage.trans h.lists).trans hp.symm⟩
    intro o ho
    simp only [MatchingEngine.apply, cancelOrder_log] at ho
    split at ho <;> simpa using ho

/-- A trade that finds a stop on the book's list breaks the engine's list. -/
theorem Doubled.not_exact (h : e.Doubled) (htrades : e.policy.Trades e.book side qty)
    (hst : e.book.pendingStopStorage ≠ []) : ¬ (e.submitMarket side qty).2.Exact := by
  intro hexact
  have hw := h.settled.wf
  obtain ⟨o, q, hq⟩ := List.exists_cons_of_ne_nil hst
  have hlive := h.settled.storage o (by rw [hq]; exact List.mem_cons_self)
  have hsound : Sound ⟨(e.submitMarket side qty).2, []⟩ := by
    rcases h.settled.filed.market_storage side qty with ⟨hn, _⟩ | ⟨_, hs⟩
    · exact absurd htrades ((lastPrice_eq_none hw).mp hn)
    · exact hs
  have hstorage : (e.submitMarket side qty).2.book.pendingStopStorage = [] := hsound.storage
  have habs := (Steps.abs (fun _ _ _ => True) hw (h.settled.market_steps side qty).1
    fun _ _ _ _ _ _ _ => trivial).2
  have hrepeats : (Config.abs e.book e.log.length ⟨e, []⟩).Repeats o := by
    refine Or.inl ⟨hlive, ?_⟩
    have hcount : 1 ≤ e.book.pendingStopStorage.count o :=
      List.count_pos_iff.mpr (by rw [hq]; exact List.mem_cons_self)
    have hboth : e.pendingStops.count o = e.book.pendingStopStorage.count o := by rw [h.lists]
    simp only [Trigger.State.copies, Config.abs, List.count_append, List.map_nil, List.count_nil]
    omega
  have hlaunch : (Config.abs e.book e.log.length (launch e side qty [])).Repeats o := by
    rcases abs_start hw side qty with ⟨_, hl⟩ | ⟨p, _, hl⟩
    · rw [hl]
      exact hrepeats
    · rw [hl]
      exact hrepeats.begin p _
  have hdead : o ∈ (e.submitMarket side qty).2.pendingStops →
      ∃ id x, (e.submitMarket side qty).2.book.stopSlot id = some (o, x) := hexact.live o
  have hpending : (Config.abs e.book e.log.length ⟨(e.submitMarket side qty).2, []⟩).pending =
      (e.submitMarket side qty).2.pendingStops := by
    simp only [Config.abs, hstorage, List.append_nil]
  rcases habs.repeats hlaunch rfl with hc | hm | ⟨ha, hp⟩
  · rw [hpending] at hc
    obtain ⟨id, x, hx⟩ := hdead (List.count_pos_iff.mp (by omega))
    have hone := hexact.once id (o, x) hx
    simp only at hone
    omega
  · obtain ⟨a, ha, hao⟩ := List.mem_filterMap.mp hm
    cases a <;> simp only [Event.missed, reduceCtorEq, Option.some.injEq] at hao
    exact hexact.fresh _ (List.mem_of_mem_drop ha)
  · rw [hpending] at hp
    exact ha (hdead hp)

/-- An undisturbed run keeps every stop in both lists. -/
theorem ReachableUndisturbed.doubled (h : ReachableUndisturbed capacity mode policy e) :
    e.Doubled :=
  Run.Reach.invariant (I := Doubled) h (doubled_new capacity mode policy) fun _ a hs ha =>
    hs.apply a ha.1 ha.2

/-- The list is exact in every undisturbed run, and the first call that disturbs the run breaks
it. -/
theorem reachable_exact_iff (h : ReachableUndisturbed capacity mode policy e) :
    e.Exact ∧ ∀ a, e.Admissible a → ((e.apply a).Exact ↔ e.Undisturbed a) := by
  have hd := h.doubled
  refine ⟨hd.exact, fun a ha => ⟨fun hexact => ?_, fun hu => (hd.apply a ha hu).exact⟩⟩
  cases a with
  | market side qty =>
    by_contra hu
    simp only [Undisturbed, not_or, not_not] at hu
    exact hd.not_exact hu.2 hu.1 hexact
  | limit | stop | cancel => trivial

/-- A stop, and a market order that finds nothing to trade with. -/
def stopAlone : List Call :=
  [.limit .sell 100 1 0, .market .buy 1, .stop .buy 200 1 .stopMarket 0 0, .market .buy 1]

/-- One stop is pending and has not been disturbed. -/
theorem reachable_exact_iff_alone :
    (stopAlone.foldl apply (new (OrderBook.new 4) .fifoStack)).Exact ∧
      ∀ a, (stopAlone.foldl apply (new (OrderBook.new 4) .fifoStack)).Admissible a →
        (((stopAlone.foldl apply (new (OrderBook.new 4) .fifoStack)).apply a).Exact ↔
          (stopAlone.foldl apply (new (OrderBook.new 4) .fifoStack)).Undisturbed a) :=
  reachable_exact_iff
    (Run.Reach.foldl Run.Reach.init (by decide +kernel))

/-- A stop that one trade leaves pending. -/
def stopTraded : List Call :=
  [.limit .sell 100 1 0, .stop .buy 200 1 .stopMarket 0 0, .market .buy 1]

/-- After one trade the stop is pending twice. -/
theorem not_exact_traded :
    Reachable 4 .pool .fifoStack (stopTraded.foldl apply (new (OrderBook.new 4) .fifoStack)) ∧
      ¬ (stopTraded.foldl apply (new (OrderBook.new 4) .fifoStack)).Exact := by
  refine ⟨Run.Reach.foldl Run.Reach.init (by decide +kernel), fun h => ?_⟩
  have hcount : ¬ ∀ id, ∀ r ∈ (stopTraded.foldl apply
      (new (OrderBook.new 4) .fifoStack)).book.stopSlot id,
      (stopTraded.foldl apply (new (OrderBook.new 4) .fifoStack)).pendingStops.count r.1 = 1 := by
    decide +kernel
  exact hcount h.once

end MatchingEngine

end Lob
