import Lob.Core.Simulation
import Lob.Demo.Dictionaries
import Lob.Engine.Runs
import Lob.Resting.Identity

/-!
# The backends agree

The toy book and the engine behind `lob_demo` answer every run of requests
alike, as long as quantities are positive, the totals fit and the pool does not
run out.
-/

namespace Lob.Demo

open Queue (Entry Book Level)

/-- The requests that both backends are made for. -/
def Fair (t : ToyBook) : Request → Prop
  | .limit side price qty => 0 < qty ∧ t.bids.count + t.asks.count < kOrders ∧
      ((((t.side side).lookup price).getD []).map ToyOrder.qty).sum + qty < 2 ^ 63
  | .market _ qty => 0 ≤ qty ∧ qty < 2 ^ 63
  | .reset | .seed | .cancel _ => True
  | .other => False

instance (t : ToyBook) (r : Request) : Decidable (Fair t r) := by
  cases r <;> simp only [Fair] <;> infer_instance

/-- The toy book holds what the engine's book holds. -/
structure Mirrors (t : ToyBook) (e : MatchingEngine) : Prop where
  wf : e.book.WellFormed
  stopFree : e.book.StopFree
  stops : e.pendingStops = []
  storage : e.book.pendingStopStorage = []
  policy : e.policy = .fifoStack
  capacity : e.book.pool.capacity = kOrders
  mode : e.book.pool.mode = .pool
  next : t.nextId = e.book.nextOrderId
  plain : e.book.queues.All Plain
  exact : e.book.queues.Exact
  bounded : ∀ s px, (e.book.queues.levelAt s px).shown < 2 ^ 63
  shows : ∀ s, (t.side s).Shows e.book.queues s

variable {t : ToyBook} {e : MatchingEngine} {side s : Side} {price qty : Int} {id : Nat}

/-- Both books are empty at first. -/
theorem mirrors_start : Mirrors {} start where
  wf := OrderBook.wellFormed_new kOrders .pool
  stopFree := OrderBook.stopFree_new kOrders .pool
  stops := rfl
  storage := rfl
  policy := rfl
  capacity := rfl
  mode := rfl
  next := rfl
  plain s n hn := by cases s <;> contradiction
  exact s n hn := by cases s <;> contradiction
  bounded s px := by cases s <;> exact Nat.two_pow_pos 63
  shows s px := by cases s <;> rfl

/-- What the backends answer in mirrored states. -/
theorem Mirrors.reply_eq (h : Mirrors t e) (ok : Bool) (id : Nat) (fills : List Fill) :
    (t.snapshot ok id (fills.map FillView.ofFill)).top kDepth = reply e ok id fills := by
  have hord := h.wf.ordered
  have hasks := (h.shows .sell).view_eq hord h.plain
  have hbids := (h.shows .buy).view_eq hord h.plain
  unfold ToyBook.snapshot Reply.top reply
  rw [levels_eq h.wf h.exact, levels_eq h.wf h.exact, ← hasks, ← hbids]
  rfl

/-- The two counts of resting orders. -/
theorem Levels.Shows.count_eq {d : Levels} {B : Book} (h : d.Shows B s) (ho : B.Ordered) :
    d.count = ((B.ladder s).map fun n => n.2.queue.length).sum := by
  have hkeys : d.entries.map (fun n => n.2.length) =
      d.keys.map fun px => ((d.lookup px).getD []).length := by
    rw [AList.keys, List.keys, List.map_map]
    refine List.map_congr_left fun n hn => ?_
    have hlookup : d.lookup n.1 = some n.2 := AList.mem_lookup_iff.mpr hn
    rw [Function.comp_apply, hlookup]
    rfl
  rw [Levels.count, hkeys, ((h.keys_perm ho).map _).sum_eq, List.map_map]
  refine congrArg List.sum (List.map_congr_left fun n hn => ?_)
  rw [Function.comp_apply, h.lookup_of_mem ho (show (n.1, n.2) ∈ _ from hn), Option.getD_some,
    List.length_map]

/-- The toy book counts the resting orders. -/
theorem Mirrors.count_eq (h : Mirrors t e) :
    t.bids.count + t.asks.count = e.book.restingSlots.length := by
  have hord := h.wf.ordered
  have hbids := (h.shows .buy).count_eq hord
  have hasks := (h.shows .sell).count_eq hord
  have hside (s : Side) : ((e.book.queues.ladder s).map fun n => n.2.queue.length).sum =
      ((e.book.ladder s).map fun n => (n.2.orders e.book.mem).length).sum := by
    rw [OrderBook.queues_ladder, Ladder.mapValues, List.map_map]
    refine congrArg List.sum (List.map_congr_left fun n _ => ?_)
    exact List.length_map _
  rw [hside] at hbids hasks
  rw [OrderBook.restingSlots, List.length_flatMap, List.map_append, List.sum_append]
  exact congrArg₂ (· + ·) hbids hasks

/-- A fair quantity is read as it is. -/
theorem toNat_ofInt (hpos : 0 ≤ qty) (hlt : qty < 2 ^ 63) :
    ((Int64.ofInt qty).toUInt64.toNat : Int) = qty := by
  obtain ⟨n, rfl⟩ := Int.eq_ofNat_of_zero_le hpos
  rw [Int64.ofInt_eq_ofNat, Int64.toUInt64_ofNat', UInt64.toNat_ofNat_of_lt']
  have hsize : UInt64.size = 2 ^ 64 := rfl
  omega

/-- Bounded levels that are summed are exact. -/
theorem exact_of_bounded {B : Book} (ho : B.Ordered) (hs : B.Summed)
    (hb : ∀ s px, (B.levelAt s px).shown < 2 ^ 63) : B.Exact := by
  refine Book.exact_iff.mpr ⟨hs, fun s n hn => ?_⟩
  have hlt := hb s n.1
  rw [ho.levelAt_of_mem hn] at hlt
  omega

/-- The side that is written. -/
theorem side_setSide_self (t : ToyBook) (s : Side) (d : Levels) : (t.setSide s d).side s = d := by
  cases s <;> rfl

/-- The side that is not written. -/
theorem side_setSide_of_ne (t : ToyBook) {s s' : Side} (hs : s' ≠ s) (d : Levels) :
    (t.setSide s d).side s' = t.side s' := by
  cases s <;> cases s' <;> first | rfl | exact absurd rfl hs

/-- A limit order is appended on its own side. -/
theorem side_limit (t : ToyBook) (s : Side) : (t.limit side price qty).side s =
    (t.setSide side ((t.side side).append price ⟨t.nextId, qty⟩)).side s := by
  cases s <;> rfl

/-- A limit order gets the same id and the same place. -/
theorem Mirrors.limit (h : Mirrors t e) (hfair : Fair t (.limit side price qty)) :
    (e.submitLimit side price (Int64.ofInt qty).toUInt64).1 = t.nextId ∧ t.nextId ≠ 0 ∧
      Mirrors (t.limit side price qty) (e.submitLimit side price (Int64.ofInt qty).toUInt64).2 := by
  obtain ⟨hpos, hroom, htotal⟩ := hfair
  have hord := h.wf.ordered
  rw [h.shows side price, listed_getD, sum_qty] at htotal
  have hq : ((Int64.ofInt qty).toUInt64.toNat : Int) = qty := toNat_ofInt (by omega) (by omega)
  generalize (Int64.ofInt qty).toUInt64 = q at hq
  have hshows : q ≠ 0 := Word.toNat_pos.mp (by omega)
  have halloc : e.book.pool.allocate ≠ none := by
    rw [ne_eq, OrderBook.allocate_none_iff h.wf h.stopFree h.mode, ← h.count_eq, h.capacity]
    omega
  have href := h.wf.apply h.stopFree (.add side price q)
  rw [Option.isSome_iff_ne_none.mpr halloc] at href
  have hqueues : (e.book.addLimitOrder side price q).2.queues = e.book.queues.add side price q :=
    href.queues
  have hord' : (e.book.queues.add side price q).Ordered := hqueues ▸ href.wf.ordered
  rcases OrderBook.addLimitOrder_cases h.wf side price q with ⟨hnone, -⟩ | ⟨-, hid, hnext, hne⟩
  · exact absurd hnone halloc
  have hbounded (s : Side) (px : Int) :
      ((e.book.queues.add side price q).levelAt s px).shown < 2 ^ 63 := by
    rw [Level.shown, hord.queue_add hord']
    split
    · rw [List.map_append, List.sum_append, List.map_singleton, List.sum_singleton]
      dsimp only
      omega
    · exact h.bounded s px
  refine ⟨hid.trans h.next.symm, h.next ▸ hne, ?_⟩
  constructor
  · exact href.wf
  · exact h.stopFree.of_eq href.stops
  · exact h.stops
  · exact href.storage.trans h.storage
  · exact h.policy
  · exact href.capacity.trans h.capacity
  · exact href.mode.trans h.mode
  · exact (congrArg (· + 1) h.next).trans hnext.symm
  · change (e.book.addLimitOrder side price q).2.queues.All Plain
    rw [hqueues]
    exact h.plain.add hord ⟨rfl, hshows⟩
  · change (e.book.addLimitOrder side price q).2.queues.Exact
    rw [hqueues]
    exact exact_of_bounded hord' ((Book.exact_iff.mp h.exact).1.add hord side price q) hbounded
  · intro s px
    change ((e.book.addLimitOrder side price q).2.queues.levelAt s px).shown < 2 ^ 63
    rw [hqueues]
    exact hbounded s px
  · intro s
    change ((t.limit side price qty).side s).Shows (e.book.addLimitOrder side price q).2.queues s
    rw [hqueues, side_limit, ← hq, h.next]
    by_cases hs : s = side
    · rw [hs, side_setSide_self]
      exact (h.shows side).append hord hord'
    · rw [side_setSide_of_ne t hs]
      exact (h.shows s).append_other hord hord' hs

/-- What a cancellation leaves shown. -/
theorem shown_cancel_le {B : Book} (ho : B.Ordered) (ho' : (B.cancel id).Ordered) (s : Side)
    (px : Int) : ((B.cancel id).levelAt s px).shown ≤ (B.levelAt s px).shown := by
  rw [Level.shown, Level.shown, ho.queue_cancel ho']
  exact (List.filter_sublist.map _).sum_le_sum fun _ _ => Nat.zero_le _

/-- An id is mapped iff its order rests on one of the sides. -/
theorem found_iff {b : OrderBook} (h : b.WellFormed) (hs : b.StopFree) :
    (b.findId id).isSome = true ↔ (∃ px e, b.queues.Rests .buy px e ∧ e.id = id) ∨
      ∃ px e, b.queues.Rests .sell px e ∧ e.id = id := by
  rcases h.lookup (hs id) with ⟨hf, hloc⟩ | ⟨o, i, l, hf, -, -, -, -, hloc⟩
  · have hno (s : Side) : ¬ ∃ px e, b.queues.Rests s px e ∧ e.id = id := by
      rintro ⟨px, e, he, rfl⟩
      obtain ⟨i, L, hat⟩ := he.exists_at
      exact (Book.locate_eq_none h.distinct).mp hloc _ hat
    simp only [hf, hno, Option.isSome_none, Bool.false_eq_true, or_self]
  · have hat := Book.at_of_locate hloc
    simp only [hf, Option.isSome_some, true_iff]
    cases hside : (b.mem o).side with
    | buy =>
      rw [hside] at hat
      exact Or.inl ⟨_, _, hat.rests, hat.id⟩
    | sell =>
      rw [hside] at hat
      exact Or.inr ⟨_, _, hat.rests, hat.id⟩

/-- A cancel finds its order in both books or in neither. -/
theorem Mirrors.cancel (h : Mirrors t e) (id : Nat) :
    (e.cancelOrder id).1 = ((t.bids.cancel id).1 || (t.asks.cancel id).1) ∧
      Mirrors { t with bids := (t.bids.cancel id).2, asks := (t.asks.cancel id).2 }
        (e.cancelOrder id).2 := by
  have hord := h.wf.ordered
  obtain ⟨hok, href⟩ := h.wf.cancelOrder (h.stopFree id)
  have hord' := h.wf.ordered_cancel (h.stopFree id)
  have hbook : (e.cancelOrder id).2.book = (e.book.cancelOrder id).2 := by
    unfold MatchingEngine.cancelOrder
    dsimp only
    split
    · rfl
    · rfl
  have hrest : (e.cancelOrder id).2.pendingStops = e.pendingStops ∧
      (e.cancelOrder id).2.policy = e.policy := by
    unfold MatchingEngine.cancelOrder
    dsimp only
    split
    · exact ⟨rfl, rfl⟩
    · exact ⟨rfl, rfl⟩
  refine ⟨?_, ?_⟩
  · change (e.book.cancelOrder id).1 = _
    have hbids := (h.shows .buy).cancel_fst hord id
    have hasks := (h.shows .sell).cancel_fst hord id
    rw [hok, Bool.eq_iff_iff, Bool.or_eq_true, found_iff h.wf h.stopFree]
    exact or_congr hbids.symm hasks.symm
  · constructor
    · rw [hbook]
      exact href.wf
    · rw [hbook]
      exact h.stopFree.of_eq href.stops
    · exact hrest.1.trans h.stops
    · rw [hbook]
      exact href.storage.trans h.storage
    · exact hrest.2.trans h.policy
    · rw [hbook]
      exact href.capacity.trans h.capacity
    · rw [hbook]
      exact href.mode.trans h.mode
    · rw [hbook]
      exact h.next.trans ((congrArg Book.nextId href.queues).trans Book.nextId_cancel).symm
    · rw [hbook, href.queues]
      exact h.plain.cancel id
    · rw [hbook, href.queues]
      exact exact_of_bounded hord' ((Book.exact_iff.mp h.exact).1.cancel hord id) fun s px =>
        Nat.lt_of_le_of_lt (shown_cancel_le hord hord' s px) (h.bounded s px)
    · intro s px
      rw [hbook, href.queues]
      exact Nat.lt_of_le_of_lt (shown_cancel_le hord hord' s px) (h.bounded s px)
    · intro s
      rw [hbook, href.queues]
      cases s with
      | buy => exact (h.shows .buy).cancel hord hord'
      | sell => exact (h.shows .sell).cancel hord hord'

/-- A market order ends in the same fills. -/
theorem Mirrors.market (h : Mirrors t e) (hfair : Fair t (.market side qty)) :
    (t.take side qty).fills =
        (e.submitMarket side (Int64.ofInt qty).toUInt64).1.map FillView.ofFill ∧
      Mirrors (t.setSide side.opposite (t.take side qty).opp)
        (e.submitMarket side (Int64.ofInt qty).toUInt64).2 := by
  have hq : ((Int64.ofInt qty).toUInt64.toNat : Int) = qty := toNat_ofInt hfair.1 hfair.2
  generalize (Int64.ofInt qty).toUInt64 = q at hq
  have hrun : Tracks side.opposite e.book.queues (t.take side qty)
      (OrderBook.sweep side.opposite (e.book.sweepBound side.opposite q) ⟨e.book, q, []⟩) := by
    have hmarket := (h.shows side.opposite).market q h.wf h.plain h.exact
    unfold ToyBook.take
    rw [← hq, Int.toNat_natCast]
    exact hmarket
  have href := (h.wf.marketOrder side q).2
  obtain ⟨hfills, hbook, hstops, hpolicy⟩ := MatchingEngine.submitMarket_of_no_stops h.stops
    h.storage h.policy (href.storage.trans h.storage)
  refine ⟨hrun.fills.trans (congrArg _ hfills).symm, ?_⟩
  constructor
  · rw [hbook]
    exact href.wf
  · rw [hbook]
    exact h.stopFree.of_eq href.stops
  · exact hstops
  · rw [hbook]
    exact href.storage.trans h.storage
  · exact hpolicy
  · rw [hbook]
    exact href.capacity.trans h.capacity
  · rw [hbook]
    exact href.mode.trans h.mode
  · have hnext : (t.setSide side.opposite (t.take side qty).opp).nextId = t.nextId := by
      cases side <;> rfl
    rw [hbook, hnext]
    exact h.next.trans hrun.next.symm
  · rw [hbook]
    exact hrun.plain
  · rw [hbook]
    exact hrun.exact
  · intro s px
    rw [hbook]
    exact Nat.lt_of_le_of_lt (hrun.less s px) (h.bounded s px)
  · intro s
    rw [hbook]
    by_cases hs : s = side.opposite
    · rw [hs, side_setSide_self]
      exact hrun.shows
    · rw [side_setSide_of_ne t hs]
      intro px
      have hladder : (e.book.marketOrder side q).2.queues.ladder s = e.book.queues.ladder s :=
        hrun.other s hs
      rw [Book.levelAt, hladder]
      exact h.shows s px

/-- One request that is no seed. -/
theorem Mirrors.handle_step (h : Mirrors t e) (r : Request) (hfair : Fair t r) (hr : r ≠ .seed) :
    Mirrors (t.handle r).1 (Demo.handle e r).1 ∧
      (t.handle r).2.top kDepth = (Demo.handle e r).2 := by
  cases r with
  | reset => exact ⟨mirrors_start, mirrors_start.reply_eq true 0 []⟩
  | seed => exact absurd rfl hr
  | limit side price qty =>
    obtain ⟨hid, hne, hnext⟩ := h.limit hfair
    refine ⟨hnext, ?_⟩
    unfold Demo.handle execute ToyBook.handle
    dsimp only
    rw [hid, decide_eq_true hne]
    exact hnext.reply_eq true t.nextId []
  | market side qty =>
    obtain ⟨hfills, hnext⟩ := h.market hfair
    refine ⟨hnext, ?_⟩
    unfold Demo.handle execute ToyBook.handle
    dsimp only
    rw [hfills]
    exact hnext.reply_eq true 0 _
  | cancel id =>
    obtain ⟨hok, hnext⟩ := h.cancel id
    refine ⟨hnext, ?_⟩
    unfold Demo.handle execute ToyBook.handle
    dsimp only
    rw [← hok]
    exact hnext.reply_eq _ id []
  | other => exact hfair.elim

/-- Every request but the seed is simulated step by step. -/
theorem simulates_steps : Run.Simulates Mirrors (fun t r => Fair t r ∧ r ≠ .seed)
    (fun t r => (t.handle r).1) (fun t r => (t.handle r).2.top kDepth)
    (fun e r => (Demo.handle e r).1) (fun e r => (Demo.handle e r).2) where
  step _ _ r h hr := (h.handle_step r hr.1 hr.2).1
  out _ _ r h hr := (h.handle_step r hr.1 hr.2).2

/-- The requests that a seed stands for. -/
def seedRequests : List Request :=
  (List.range' 1 8).flatMap fun i : Nat =>
    [.limit .buy (10000 - i) (5 + i), .limit .sell (10000 + i) (5 + i)]

/-- The state that the replies lead through. -/
theorem foldl_fst (rs : List Request) (r : MatchingEngine × Reply) :
    (rs.foldl (fun r q => Demo.handle r.1 q) r).1 =
      rs.foldl (fun e q => (Demo.handle e q).1) r.1 := by
  induction rs generalizing r with
  | nil => rfl
  | cons q rs ih => exact ih _

/-- Seeding is a list of requests to an empty engine. -/
theorem handle_seed (e : MatchingEngine) : Demo.handle e .seed =
    seedRequests.foldl (fun r q => Demo.handle r.1 q) (execute start .snap) := by
  unfold Demo.handle seedLines seedRequests
  rw [List.foldl_flatMap, List.foldl_flatMap]
  rfl

/-- The toy book is seeded by the same list. -/
theorem seeded_eq : ToyBook.seeded =
    seedRequests.foldl (fun t r => (t.handle r).1) {} := by
  unfold ToyBook.seeded seedRequests
  rw [List.foldl_flatMap]
  rfl

/-- The last of the requests is a sell. -/
theorem seedRequests_eq :
    seedRequests = seedRequests.dropLast ++ [.limit .sell 10008 13] := by
  decide

/-- The list of requests is a fair one. -/
theorem allowed_seed : Run.Allowed (fun t r => (ToyBook.handle t r).1)
      (fun t r => Fair t r ∧ r ≠ .seed) {} seedRequests.dropLast ∧
    Fair (seedRequests.dropLast.foldl (fun t r => (t.handle r).1) {}) (.limit .sell 10008 13) := by
  decide +kernel

/-- A seed is a run of limit orders on both sides. -/
theorem mirrors_seed (t : ToyBook) (e : MatchingEngine) :
    Mirrors (t.handle .seed).1 (Demo.handle e .seed).1 ∧
      (t.handle .seed).2.top kDepth = (Demo.handle e .seed).2 := by
  have hrun := simulates_steps.foldl mirrors_start allowed_seed.1
  obtain ⟨hlast, hreply⟩ := hrun.handle_step _ allowed_seed.2 (by decide)
  have htoy : t.handle .seed = (ToyBook.seeded,
      ToyBook.seeded.snapshot true (ToyBook.seeded.nextId - 1) []) := rfl
  rw [htoy, seeded_eq, handle_seed, seedRequests_eq, List.foldl_append, List.foldl_append,
    List.foldl_cons, List.foldl_cons, List.foldl_nil, List.foldl_nil, foldl_fst]
  exact ⟨hlast, hreply⟩

/-- Both backends go through the same states and give the same replies. -/
theorem simulates : Run.Simulates Mirrors Fair
    (fun t r => (t.handle r).1) (fun t r => (t.handle r).2.top kDepth)
    (fun e r => (Demo.handle e r).1) (fun e r => (Demo.handle e r).2) := by
  have hstep (t : ToyBook) (e : MatchingEngine) (r : Request) (h : Mirrors t e) (hr : Fair t r) :
      Mirrors (t.handle r).1 (Demo.handle e r).1 ∧
        (t.handle r).2.top kDepth = (Demo.handle e r).2 := by
    by_cases hs : r = .seed
    · rw [hs]
      exact mirrors_seed t e
    · exact h.handle_step r hr hs
  exact ⟨fun t e r h hr => (hstep t e r h hr).1, fun t e r h hr => (hstep t e r h hr).2⟩

end Lob.Demo
