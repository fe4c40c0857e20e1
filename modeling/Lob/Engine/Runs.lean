import Lob.Core.Run
import Lob.Cascade.Abstraction
import Lob.Representation.Trades

/-!
# Runs of the engine

The calls an engine is driven with, and what holds between any two of them: the book
is well formed and every registered stop is in the engine's list. A market order
reaches its result through the machine.
-/

namespace Lob

/-- A call on the engine or on its book. -/
inductive Call where
  | limit (side : Side) (price : Int) (qty display : Qty)
  | market (side : Side) (qty : Qty)
  | stop (side : Side) (stopPrice : Int) (qty : Qty) (stopType : StopType) (limitPrice : Int)
      (display : Qty)
  | cancel (id : Nat)
  deriving DecidableEq, Repr

namespace MatchingEngine

/-- The engine after a call. -/
def apply (e : MatchingEngine) : Call → MatchingEngine
  | .limit side price qty display => (e.submitLimit side price qty display).2
  | .market side qty => (e.submitMarket side qty).2
  | .stop side stopPrice qty stopType limitPrice display =>
    (e.submitStop side stopPrice qty stopType limitPrice display).2
  | .cancel id => (e.cancelOrder id).2

/-- Stops have one of the two stop types, and no stop is cancelled. -/
def Admissible (e : MatchingEngine) : Call → Prop
  | .limit .. | .market .. => True
  | .stop _ _ _ stopType _ _ => stopType ≠ .none
  | .cancel id => e.book.stopSlot id = none

instance (e : MatchingEngine) (a : Call) : Decidable (e.Admissible a) := by
  cases a <;> simp only [Admissible] <;> infer_instance

/-- The states of an engine between calls. -/
def Reachable (capacity : Nat) (mode : AllocMode) (policy : MatchingPolicy) :
    MatchingEngine → Prop :=
  Run.Reach apply Admissible (new (OrderBook.new capacity mode) policy)

/-- The book is well formed, registered stops are in the engine's list, and the stops in the book's
list are registered. -/
structure Settled (e : MatchingEngine) : Prop where
  wf : e.book.WellFormed
  held : ∀ id o x, e.book.stopSlot id = some (o, x) → o ∈ e.pendingStops
  storage : ∀ o ∈ e.book.pendingStopStorage, ∃ id x, e.book.stopSlot id = some (o, x)

/-- The book is well formed, and registered stops are in one of the two lists. -/
structure Filed (e : MatchingEngine) : Prop where
  wf : e.book.WellFormed
  held : ∀ id o x, e.book.stopSlot id = some (o, x) →
    o ∈ e.pendingStops ++ e.book.pendingStopStorage

variable {e : MatchingEngine} {side : Side} {price stopPrice limitPrice : Int} {qty display : Qty}
  {stopType : StopType} {id : Nat} {o : Ptr} {x : Order}

/-- A match has a last price iff it trades. -/
theorem lastPrice_eq_none (h : e.book.WellFormed) :
    e.lastPrice side qty = none ↔ ¬ e.policy.Trades e.book side qty := by
  rw [← h.run_eq_nil, lastPrice, Option.map_eq_none_iff, List.getLast?_eq_none_iff]
  rfl

/-- A settled engine has every stop in its list. -/
theorem Settled.filed (h : e.Settled) : e.Filed where
  wf := h.wf
  held id o x hx := List.mem_append_left _ (h.held id o x hx)

/-- The two lists bound the number of stops. -/
theorem Filed.ncard_stops (h : e.Filed) : e.stops.ncard < e.depthBound := by
  have hsub : e.stops ⊆ (((e.pendingStops ++ e.book.pendingStopStorage).toFinset.image
      fun o => (e.book.mem o).orderId : Finset Nat) : Set Nat) := by
    intro id hid
    obtain ⟨⟨o, x⟩, hx⟩ := Option.ne_none_iff_exists'.mp hid
    refine Finset.mem_coe.mpr (Finset.mem_image.mpr ⟨o, ?_, ?_⟩)
    · exact List.mem_toFinset.mpr (h.held id o x hx)
    · exact (h.wf.table id o (OrderBook.stopSlot_eq_some.mp hx).1).1
  have hcard := Set.ncard_le_ncard hsub (Finset.finite_toSet _)
  rw [Set.ncard_coe_finset] at hcard
  have himage := Finset.card_image_le (s := (e.pendingStops ++ e.book.pendingStopStorage).toFinset)
    (f := fun o => (e.book.mem o).orderId)
  have hlist := (e.pendingStops ++ e.book.pendingStopStorage).toFinset_card_le
  rw [List.length_append] at hlist
  rw [depthBound]
  omega

/-- `submit_market` returns its batch of fills and the engine the machine reaches. -/
theorem Filed.market_steps (h : e.Filed) (side : Side) (qty : Qty) :
    Config.Steps (Config.launch e side qty []) ⟨(e.submitMarket side qty).2, []⟩ ∧
      (e.submitMarket side qty).1 = e.batch side qty :=
  Config.submitMarketDepth_steps e.depthBound h.wf h.ncard_stops side qty []

/-- `submit_market` is a run of the cascade to its end. -/
theorem Settled.market_steps (h : e.Settled) (side : Side) (qty : Qty) :
    Config.Steps (Config.launch e side qty []) ⟨(e.submitMarket side qty).2, []⟩ ∧
      (e.submitMarket side qty).1 = e.batch side qty :=
  h.filed.market_steps side qty

/-- A new engine is settled. -/
theorem settled_new (capacity : Nat) (mode : AllocMode) (policy : MatchingPolicy) :
    (new (OrderBook.new capacity mode) policy).Settled where
  wf := OrderBook.wellFormed_new capacity mode
  held id o x hx := by
    obtain ⟨hf, _⟩ := OrderBook.stopSlot_eq_some.mp hx
    simp [new, OrderBook.findId_new] at hf
  storage o ho := by simp [new, OrderBook.new] at ho

/-- Without stops in play, a call keeps what holds between calls. -/
theorem Settled.refines {e' : MatchingEngine} {B : Queue.Book} (h : e.Settled)
    (hr : OrderBook.Refines e.book e'.book B) (hp : e'.pendingStops = e.pendingStops) :
    e'.Settled where
  wf := hr.wf
  held id o x hx := by
    rw [hr.stops] at hx
    rw [hp]
    exact h.held id o x hx
  storage o ho := by
    rw [hr.storage] at ho
    rw [hr.stops]
    exact h.storage o ho

/-- Without stops in play, a call keeps the stops filed. -/
theorem Filed.refines {e' : MatchingEngine} {B : Queue.Book} (h : e.Filed)
    (hr : OrderBook.Refines e.book e'.book B) (hp : e'.pendingStops = e.pendingStops) :
    e'.Filed where
  wf := hr.wf
  held id o x hx := by
    rw [hr.stops] at hx
    rw [hp, hr.storage]
    exact h.held id o x hx

/-- The stop `submit_stop` registers. -/
theorem submitStop_eq {r : Ptr × OrderPool} (ha : e.book.pool.allocate = some r)
    (h : e.book.WellFormed) (hst : stopType ≠ .none) :
    e.submitStop side stopPrice qty stopType limitPrice display = (e.book.nextOrderId,
      ({ e with
          book := (e.book.addPendingStop side stopPrice qty stopType limitPrice display).2
          pendingStops := e.pendingStops ++ [r.1] }).record
        (.stop e.book.nextOrderId side stopPrice qty stopType limitPrice display)) := by
  obtain ⟨o, pool⟩ := r
  have hid : (e.book.addPendingStop side stopPrice qty stopType limitPrice display).1 =
      e.book.nextOrderId := by rw [OrderBook.addPendingStop_eq ha]
  have hfind : (e.book.addPendingStop side stopPrice qty stopType limitPrice display).2.findId
      e.book.nextOrderId = some o := by
    have hg := OrderBook.addPendingStop_grows ha h hst side stopPrice qty limitPrice display
    rw [hg.find, if_pos rfl]
  have hpos : e.book.nextOrderId ≠ 0 := Nat.ne_of_gt (OrderBook.Grows.nextOrderId_pos h)
  simp only [submitStop, hid, if_neg hpos, book_record, hfind]
  rfl

/-- With a full pool `submit_stop` is refused and logged. -/
theorem submitStop_full (ha : e.book.pool.allocate = none) :
    e.submitStop side stopPrice qty stopType limitPrice display =
      (0, e.record (.stop 0 side stopPrice qty stopType limitPrice display)) := by
  simp only [submitStop, OrderBook.addPendingStop_full ha, if_true]

/-- An accepted stop is filed. -/
theorem Settled.stop (h : e.Settled) (hst : stopType ≠ .none) (side : Side) (stopPrice : Int)
    (qty : Qty) (limitPrice : Int) (display : Qty) :
    (e.submitStop side stopPrice qty stopType limitPrice display).2.Settled := by
  cases ha : e.book.pool.allocate with
  | none =>
    rw [submitStop_full ha]
    exact ⟨h.wf, h.held, h.storage⟩
  | some r =>
    obtain ⟨o, pool⟩ := r
    have hg := OrderBook.addPendingStop_grows ha h.wf hst side stopPrice qty limitPrice display
    have hslot :=
      OrderBook.addPendingStop_stopSlot ha h.wf hst side stopPrice qty limitPrice display
    rw [submitStop_eq ha h.wf hst]
    constructor
    · exact hg.wellFormed h.wf
    · intro j p x hx
      simp only [book_record, hslot] at hx
      simp only [pendingStops_record, List.mem_append, List.mem_singleton]
      split at hx
      · simp only [Option.some.injEq, Prod.mk.injEq] at hx
        exact Or.inr hx.1.symm
      · exact Or.inl (h.held j p x hx)
    · intro p hp
      simp only [book_record, OrderBook.addPendingStop_eq ha, List.mem_append,
        List.mem_singleton] at hp
      simp only [book_record, hslot]
      rcases hp with hp | rfl
      · obtain ⟨j, x, hx⟩ := h.storage p hp
        have hlt := h.wf.id_lt (OrderBook.stopSlot_eq_some.mp hx).1
        exact ⟨j, x, by rw [if_neg (Nat.ne_of_lt hlt), hx]⟩
      · exact ⟨e.book.nextOrderId, _, if_pos rfl⟩

/-- In a market order that begins no pass nothing moves, and after one that does the book's list
is empty. -/
theorem Filed.market_storage (h : e.Filed) (side : Side) (qty : Qty) :
    e.lastPrice side qty = none ∧ (e.submitMarket side qty).2 = e.matched side qty ∨
      (∃ p, e.lastPrice side qty = some p) ∧
        Config.Sound ⟨(e.submitMarket side qty).2, []⟩ := by
  have hsteps := (h.market_steps side qty).1
  cases hl : e.lastPrice side qty with
  | none =>
    rw [Config.launch_none hl] at hsteps
    exact Or.inl ⟨rfl, congrArg Config.engine (Config.Steps.of_nil hsteps rfl)⟩
  | some p =>
    rw [Config.launch_some hl] at hsteps
    exact Or.inr ⟨⟨p, rfl⟩, Config.Steps.sound hsteps
      (Config.begin_sound (matched_refines h.wf side qty).wf)⟩

/-- The queue of a call ends with every registered stop in one of the lists. -/
theorem Filed.market (h : e.Filed) (side : Side) (qty : Qty) :
    (e.submitMarket side qty).2.Filed := by
  rcases h.market_storage side qty with ⟨_, heq⟩ | ⟨_, hsound⟩
  · rw [heq]
    exact h.refines (matched_refines h.wf side qty) rfl
  · have habs := (Config.Steps.abs (fun _ _ _ => True) h.wf (h.market_steps side qty).1
      fun _ _ _ _ _ _ _ => trivial).2
    have hstart : Trigger.State.Held (Config.abs e.book e.log.length ⟨e, []⟩) :=
      fun o ⟨id, x, hx⟩ => Or.inl (h.held id o x hx)
    have hheld : Trigger.State.Held (Config.abs e.book e.log.length
        ⟨(e.submitMarket side qty).2, []⟩) := by
      refine Trigger.Steps.invariant habs ?_ fun _ _ hs hc => hc.held hs
      rcases Config.abs_start h.wf side qty with ⟨_, hl⟩ | ⟨p, _, hl⟩
      · rw [hl]
        exact hstart
      · rw [hl]
        exact hstart.begin p _
    refine ⟨hsound.wf, ?_⟩
    intro id o x hx
    rcases hheld o ⟨id, x, hx⟩ with hp | ⟨t, ht, _⟩
    · exact hp
    · simp [Config.abs] at ht

/-- The queue of a call ends with every registered stop in the engine's list. -/
theorem Settled.market (h : e.Settled) (side : Side) (qty : Qty) :
    (e.submitMarket side qty).2.Settled := by
  have hfiled := h.filed.market side qty
  rcases h.filed.market_storage side qty with ⟨_, heq⟩ | ⟨_, hsound⟩
  · rw [heq]
    exact h.refines (matched_refines h.wf side qty) rfl
  · have hst : (e.submitMarket side qty).2.book.pendingStopStorage = [] := hsound.storage
    refine ⟨hfiled.wf, ?_, ?_⟩
    · intro id o x hx
      have hp := hfiled.held id o x hx
      rwa [hst, List.append_nil] at hp
    · intro o ho
      simp [hst] at ho

/-- Without stops `submit_market` is `market_order`. -/
theorem submitMarket_of_no_stops (hstops : e.pendingStops = [])
    (hstorage : e.book.pendingStopStorage = []) (hpolicy : e.policy = .fifoStack)
    (hafter : (e.book.marketOrder side qty).2.pendingStopStorage = []) :
    (e.submitMarket side qty).1 = (e.book.marketOrder side qty).1 ∧
      (e.submitMarket side qty).2.book = (e.book.marketOrder side qty).2 ∧
      (e.submitMarket side qty).2.pendingStops = [] ∧
      (e.submitMarket side qty).2.policy = .fifoStack := by
  have hdepth : e.depthBound = 0 + 1 := by
    unfold depthBound
    rw [hstops, hstorage]
    rfl
  unfold submitMarket
  rw [hdepth]
  unfold submitMarketDepth MatchingPolicy.run
  rw [hpolicy]
  dsimp only
  generalize e.book.marketOrder side qty = r at hafter ⊢
  cases r.1.getLast? with
  | none => exact ⟨rfl, rfl, hstops, rfl⟩
  | some f =>
    unfold processTriggers OrderBook.takePendingStops record
    dsimp only
    rw [hstops, hafter, List.append_nil, List.foldl_nil]
    refine ⟨rfl, ?_, rfl, rfl⟩
    dsimp only
    rw [← hafter]

/-- Cancelling an id that names no stop touches the resting orders only. -/
theorem cancelOrder_refines (h : e.book.WellFormed) (hid : e.book.stopSlot id = none) :
    OrderBook.Refines e.book (e.cancelOrder id).2.book (e.book.queues.cancel id) := by
  have hr := (h.cancelOrder hid).2
  rw [MatchingEngine.cancelOrder]
  simp only
  split <;> exact hr

/-- Only a cancel that finds its order is logged. -/
theorem cancelOrder_log : (e.cancelOrder id).2.log =
    if (e.book.findId id).isSome then e.log ++ [.cancel id] else e.log := by
  have hok : (e.book.cancelOrder id).1 = (e.book.findId id).isSome := by
    rw [OrderBook.cancelOrder]
    cases e.book.findId id <;> rfl
  simp only [MatchingEngine.cancelOrder, hok]
  split <;> rfl

/-- A cancel leaves the pointer of a stop in the list. -/
theorem cancelOrder_pendingStops : (e.cancelOrder id).2.pendingStops = e.pendingStops := by
  simp only [MatchingEngine.cancelOrder]
  split <;> rfl

/-- Every call leaves the engine settled. -/
theorem Settled.apply (h : e.Settled) (a : Call) (ha : e.Admissible a) : (e.apply a).Settled := by
  cases a with
  | limit side price qty display =>
    exact h.refines (submitLimit_refines h.wf side price qty display).2 rfl
  | market side qty => exact h.market side qty
  | stop side stopPrice qty stopType limitPrice display =>
    exact h.stop ha side stopPrice qty limitPrice display
  | cancel id => exact h.refines (cancelOrder_refines h.wf ha) cancelOrder_pendingStops

/-- Every reachable engine is settled. -/
theorem Reachable.settled {capacity : Nat} {mode : AllocMode} {policy : MatchingPolicy}
    (h : Reachable capacity mode policy e) : e.Settled :=
  Run.Reach.invariant (I := Settled) h (settled_new capacity mode policy) fun _ a hs ha =>
    hs.apply a ha

/-- An invariant of the calls, which may rely on the state being settled. -/
theorem Reachable.invariant {capacity : Nat} {mode : AllocMode} {policy : MatchingPolicy}
    {I : MatchingEngine → Prop} (h : Reachable capacity mode policy e)
    (hinit : I (new (OrderBook.new capacity mode) policy))
    (hstep : ∀ e a, e.Settled → I e → e.Admissible a → I (e.apply a)) : I e :=
  Run.Reach.invariant_of (J := Settled) h (fun _ hs => Reachable.settled hs) hinit hstep

end MatchingEngine

end Lob
