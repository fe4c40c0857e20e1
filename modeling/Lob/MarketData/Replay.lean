import Lob.MarketData.Publisher
import Lob.Queue.Cancellation
import Lob.Queue.Priority
import Lob.Resting.Aggregate

/-!
# What the feed tells

An observer of the feed keeps the orders at each price and applies the messages.
Each call on the book is told by the messages that the matching thread publishes
for it: the orders, their places in the queues and what is left of them.
-/

namespace Lob.Md

open Queue (Entry Book Level)

/-- A message of the feed, in the numbers of the book. -/
inductive Message where
  | add (id : Nat) (side : Side) (px : Int) (qty : Qty)
  | cancel (id : Nat)
  | execute (id : Nat) (px : Int) (qty : Qty)
  | snapshot (bid ask : Option (Int × Qty))
  deriving DecidableEq, Repr

/-- An order as an observer knows it. -/
structure TapeOrder where
  id : Nat
  qty : Qty
  deriving DecidableEq, Repr

/-- What an observer knows: the orders at each price, in time order. -/
abbrev Tape := Side → Int → List TapeOrder

/-- What an execution leaves of an order. -/
def TapeOrder.execute (id : Nat) (qty : Qty) (o : TapeOrder) : Option TapeOrder :=
  if o.id = id then if o.qty - qty = 0 then none else some { o with qty := o.qty - qty }
  else some o

namespace Tape

/-- The observer applies a message. -/
def apply (T : Tape) : Message → Tape
  | .add id side px qty => fun s k => if s = side ∧ k = px then T s k ++ [⟨id, qty⟩] else T s k
  | .cancel id => fun s k => (T s k).filter fun o => o.id ≠ id
  | .execute id _ qty => fun s k => (T s k).filterMap (TapeOrder.execute id qty)
  | .snapshot _ _ => T

/-- The observer applies the messages in order. -/
def replay (T : Tape) (ms : List Message) : Tape := ms.foldl apply T

/-- The tape without some orders. -/
def without (T : Tape) (ids : List Nat) : Tape := fun s k => (T s k).filter fun o => o.id ∉ ids

/-- The best price of a side and its total. -/
def Best (T : Tape) (s : Side) : Option (Int × Qty) → Prop
  | none => ∀ k, T s k = []
  | some (px, qty) => T s px ≠ [] ∧ (∀ k, T s k ≠ [] → k = px ∨ s.cmp px k = true) ∧
      qty.toNat = ((T s px).map fun o => o.qty.toNat).sum

variable {T : Tape} {ids : List Nat} {id : Nat} {px : Int} {s : Side} {qty : Qty} {m : Message}

theorem replay_append (T : Tape) (ms ns : List Message) :
    T.replay (ms ++ ns) = (T.replay ms).replay ns := List.foldl_append

/-- An order that stays has the id it had. -/
theorem execute_id {o o' : TapeOrder} (h : o.execute id qty = some o') : o'.id = o.id := by
  unfold TapeOrder.execute at h
  split at h
  · split at h
    · contradiction
    · rw [← Option.some.inj h]
  · rw [← Option.some.inj h]

/-- What an execution leaves was there before. -/
theorem exists_of_mem_execute {k : Int} {o' : TapeOrder}
    (h : o' ∈ (T.apply (.execute id px qty)) s k) : ∃ o ∈ T s k, o.id = o'.id := by
  obtain ⟨o, ho, he⟩ := List.mem_filterMap.mp h
  exact ⟨o, ho, (execute_id he).symm⟩

/-- Where the id does not stand an execution does nothing. -/
theorem filterMap_execute {os : List TapeOrder} (h : ∀ o ∈ os, o.id ≠ id) :
    os.filterMap (TapeOrder.execute id qty) = os := by
  refine (List.filterMap_congr fun o ho => ?_).trans List.filterMap_some
  rw [TapeOrder.execute, if_neg (h o ho)]

/-- Orders that are left out do not matter to the rest. -/
theorem apply_without (hm : ∀ id side px qty, m = .add id side px qty → id ∉ ids) :
    (T.apply m).without ids = (T.without ids).apply m := by
  funext s k
  cases m with
  | add id side px qty =>
    simp only [apply, without]
    split
    · rw [List.filter_append, List.filter_singleton, decide_eq_true (hm id side px qty rfl)]
      rfl
    · rfl
  | cancel id =>
    simp only [apply, without, List.filter_filter, Bool.and_comm]
  | execute id px qty =>
    simp only [apply, without]
    induction T s k with
    | nil => rfl
    | cons o os ih =>
      rw [List.filterMap_cons, List.filter_cons]
      cases ho : o.execute id qty with
      | none =>
        dsimp only
        split
        · rw [List.filterMap_cons, ho]
          exact ih
        · exact ih
      | some o' =>
        dsimp only
        rw [List.filter_cons, execute_id ho]
        split
        · rw [List.filterMap_cons, ho, ih]
        · exact ih
  | snapshot bid ask => rfl

/-- An order that the tape does not hold need not be left out. -/
theorem without_append_singleton (hT : ∀ s k, ∀ o ∈ T s k, o.id ≠ id) :
    T.without (ids ++ [id]) = T.without ids := by
  funext s k
  refine List.filter_congr fun o ho => ?_
  have hne := hT s k o ho
  simp only [List.mem_append, List.mem_singleton, hne, or_false]

/-- An order that is left out need not be added. -/
theorem without_add {side : Side} (hT : ∀ s k, ∀ o ∈ T s k, o.id ≠ id) :
    (T.apply (.add id side px qty)).without (ids ++ [id]) = T.without ids := by
  rw [← without_append_singleton hT]
  funext s k
  simp only [apply, without]
  split
  · rw [List.filter_append, List.filter_singleton]
    simp
  · rfl

theorem without_without (T : Tape) (ids js : List Nat) :
    (T.without ids).without js = T.without (js ++ ids) := by
  funext s k
  simp only [without, List.filter_filter, List.mem_append, not_or, Bool.decide_and]

theorem replay_without {ms : List Message}
    (hm : ∀ id side px qty, .add id side px qty ∈ ms → id ∉ ids) :
    (T.replay ms).without ids = (T.without ids).replay ms := by
  induction ms generalizing T with
  | nil => rfl
  | cons m ms ih =>
    have hfirst : (T.apply m).without ids = (T.without ids).apply m :=
      apply_without fun id side px qty heq =>
        hm id side px qty (by rw [heq]; exact List.mem_cons_self)
    have hrest := ih (T := T.apply m) fun id side px qty hmem =>
      hm id side px qty (List.mem_cons_of_mem m hmem)
    rw [replay, List.foldl_cons]
    exact hrest.trans (by rw [hfirst]; rfl)

end Tape

/-- The order that an entry stands for. -/
def TapeOrder.ofEntry (e : Entry) : TapeOrder := ⟨e.id, e.remaining⟩

/-- What an observer who knows a book knows. -/
def tape (B : Book) : Tape := fun s k => (B.levelAt s k).queue.map TapeOrder.ofEntry

/-- The messages of the fills of a market order. -/
def executions (fills : List Fill) : List Message :=
  fills.map fun f => .execute f.restingOrderId f.price f.qty

/-- The best price and its quantity, for a snapshot. -/
def top (b : OrderBook) (s : Side) : Option (Int × Qty) :=
  (b.best s).map fun px => (px, b.bestQty s)

variable {B : Book} {b : OrderBook} {s : Side} {px : Int} {L : Level} {e : Entry}
  {qty amt agg : Qty} {id : Nat}

/-- A limit order is told by its message. -/
theorem tape_add (h : B.Ordered) (h' : (B.add s px qty).Ordered) :
    tape (B.add s px qty) = (tape B).apply (.add B.nextId s px qty) := by
  funext t k
  simp only [tape, Tape.apply]
  rw [h.queue_add h']
  split
  · next hk =>
    rw [hk.1, hk.2, List.map_append]
    rfl
  · rfl

/-- A cancellation is told by its message. -/
theorem tape_cancel (h : B.Ordered) (h' : (B.cancel id).Ordered) :
    tape (B.cancel id) = (tape B).apply (.cancel id) := by
  funext t k
  simp only [tape, Tape.apply]
  rw [h.queue_cancel h', List.filter_map]
  rfl

/-- A fill of the first order of a level is told by its message. -/
theorem tape_fill (h : B.Ordered) (hat : B.At e.id ⟨s, 0, px, L, e⟩) {es : List Entry}
    (hq : L.queue = e :: es) (hd : e.display = 0)
    (h' : (B.put s 0 px (L.fill e amt agg)).Ordered) :
    tape (B.put s 0 px (L.fill e amt agg)) = (tape B).apply (.execute e.id px amt) := by
  have hmem := List.mem_of_getElem? hat.level
  have hL : L.Distinct := h.level s _ hmem
  funext t k
  simp only [tape, Tape.apply]
  rw [h.queue_put hat.level h']
  split
  · next hk =>
    obtain ⟨rfl, rfl⟩ := hk
    have hes := (hL.split (show L.queue = [] ++ e :: es from hq)).2
    have hrest : (es.map TapeOrder.ofEntry).filterMap (TapeOrder.execute e.id amt) =
        es.map TapeOrder.ofEntry :=
      Tape.filterMap_execute (List.forall_mem_map.mpr hes)
    rw [hL.queue_fill hq hd, h.levelAt_of_mem hmem, hq, List.map_cons, List.filterMap_cons, hrest]
    unfold TapeOrder.execute TapeOrder.ofEntry
    dsimp only
    rw [if_pos rfl]
    split
    · rfl
    · rfl
  · next hk =>
    refine (Tape.filterMap_execute (List.forall_mem_map.mpr fun x hx hid => hk ?_)).symm
    obtain ⟨hs, hpx, -⟩ := h.rests_unique (h.mem_levelAt.mp hx) hat.rests hid
    exact ⟨hs, hpx⟩

/-- The entries hide nothing. -/
def NoIcebergs (B : Book) : Prop := B.All fun e => e.display = 0

/-- An iteration of the loop of `market_order` is told by the messages of its fills. -/
theorem tape_sweepStep {w : OrderBook.Sweep} (h : w.book.WellFormed)
    (hice : NoIcebergs w.book.queues) : ∃ fills,
    (OrderBook.sweepStep s w).fills = w.fills ++ fills ∧
      (∀ f ∈ fills, ∃ o ∈ tape w.book.queues s f.price, o.id = f.restingOrderId) ∧
      tape (OrderBook.sweepStep s w).book.queues =
        (tape w.book.queues).replay (executions fills) := by
  obtain ⟨href, hview⟩ := h.sweepStep (s := s)
  have hord' := href.wf.ordered
  cases hv : w.book.queues.ladder s with
  | nil =>
    have hv' : w.view.book.ladder s = [] := hv
    have hidle : Queue.sweepStep s w.view = w.view := by simp only [Queue.sweepStep, hv']
    rw [hidle] at hview
    refine ⟨[], ?_, List.forall_mem_nil _, ?_⟩
    · rw [List.append_nil]
      exact congrArg Queue.Sweep.fills hview
    · exact congrArg (fun v => tape v.book) hview
  | cons n rest =>
    obtain ⟨px, L⟩ := n
    have hn : (px, L) ∈ w.book.queues.ladder s := by
      rw [hv]
      exact List.mem_cons_self
    obtain ⟨e, es, hq⟩ := List.exists_cons_of_ne_nil (h.ordered.nonempty s _ hn)
    have hmem : e ∈ L.queue := by
      rw [hq]
      exact List.mem_cons_self
    have hat : w.book.queues.At e.id ⟨s, 0, px, L, e⟩ := ⟨by rw [hv]; rfl, hmem, rfl⟩
    rw [Queue.sweepStep_cons (w := w.view) hv hq] at hview
    have hbook := congrArg Queue.Sweep.book hview
    refine ⟨_, congrArg Queue.Sweep.fills hview, ?_, ?_⟩
    · refine List.forall_mem_singleton.mpr ⟨TapeOrder.ofEntry e, List.mem_map_of_mem ?_, rfl⟩
      exact h.ordered.mem_levelAt.mpr hat.rests
    rw [show (OrderBook.sweepStep s w).book.queues = _ from hbook] at hord' ⊢
    exact tape_fill h.ordered hat hq (hice s _ hn e hmem) hord'

/-- What executions leave was there before. -/
theorem Tape.exists_of_mem_executions {T : Tape} {k : Int} {o' : TapeOrder} {fills : List Fill}
    (h : o' ∈ (T.replay (executions fills)) s k) : ∃ o ∈ T s k, o.id = o'.id := by
  induction fills generalizing T with
  | nil => exact ⟨o', h, rfl⟩
  | cons f fills ih =>
    obtain ⟨o₁, ho₁, hid₁⟩ := ih (T := T.apply (.execute f.restingOrderId f.price f.qty)) h
    obtain ⟨o, ho, hid⟩ := exists_of_mem_execute ho₁
    exact ⟨o, ho, hid.trans hid₁⟩

/-- A fill hides nothing, and an order without a hidden part is not refilled. -/
theorem fills_noIcebergs : Book.Fills fun e => e.display = 0 where
  take _ _ h _ := h
  refill _ h _ hr := absurd h hr.1

/-- A market order is told by the messages of its fills, in order, and fills orders that the
observer knows. -/
theorem tape_marketOrder (h : b.WellFormed) (hice : NoIcebergs b.queues) (side : Side) (qty : Qty) :
    (∀ f ∈ (b.marketOrder side qty).1,
      ∃ o ∈ tape b.queues side.opposite f.price, o.id = f.restingOrderId) ∧
    tape (b.marketOrder side qty).2.queues =
      (tape b.queues).replay (executions (b.marketOrder side qty).1) := by
  unfold OrderBook.marketOrder
  simp only [OrderBook.sweep_eq_run]
  refine (Loop.run_invariant (I := fun w : OrderBook.Sweep => w.book.WellFormed ∧
      NoIcebergs w.book.queues ∧
      (∀ f ∈ w.fills, ∃ o ∈ tape b.queues side.opposite f.price, o.id = f.restingOrderId) ∧
      tape w.book.queues = (tape b.queues).replay (executions w.fills))
    (fun w hw _ => ?_) ⟨h, hice, List.forall_mem_nil _, rfl⟩ _).2.2
  · obtain ⟨hwf, hno, hknown, htape⟩ := hw
    obtain ⟨fills, hfills, hnew, hstep⟩ := tape_sweepStep (s := side.opposite) hwf hno
    have hkeep := Book.All.sweepStep (s := side.opposite) (w := w.view) fills_noIcebergs hno
    rw [← (hwf.sweepStep (s := side.opposite)).2] at hkeep
    refine ⟨(hwf.sweepStep (s := side.opposite)).1.wf, hkeep, ?_, ?_⟩
    · intro f hf
      rw [hfills] at hf
      rcases List.mem_append.mp hf with hf | hf
      · exact hknown f hf
      · obtain ⟨o', ho', hid'⟩ := hnew f hf
        rw [htape] at ho'
        obtain ⟨o, ho, hid⟩ := Tape.exists_of_mem_executions ho'
        exact ⟨o, ho, hid.trans hid'⟩
    · rw [hstep, htape, hfills, executions, executions, executions, List.map_append,
        Tape.replay_append]

end Lob.Md
