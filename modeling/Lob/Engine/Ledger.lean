import Lob.Engine.Runs
import Lob.Representation.Accounts

/-!
# The ledger of executed quantity

What the fills in the log say has been executed against an order and what the book
still holds of it make up the size it was submitted with, in every configuration of
every cascade. An order leaves the book by being cancelled or with nothing left.
-/

namespace Lob

/-- The quantity an event executes against order `id`. -/
def Event.executed (id : Nat) : Event → Nat
  | .market _ _ fills =>
    ((fills.filter fun f => f.restingOrderId = id).map fun f => f.qty.toNat).sum
  | _ => 0

/-- The quantity executed against order `id` over the whole log. -/
def executed (log : List Event) (id : Nat) : Nat := (log.map (Event.executed id)).sum

/-- The fills a policy returns of those it makes. -/
def MatchingPolicy.returns : MatchingPolicy → Fill → Bool
  | .fifoStack, _ => true
  | .proRata _, f => decide (0 < f.qty)

/-- A matching call is a sequence of fills, and returns them but for empty ones. -/
theorem OrderBook.WellFormed.run_fills {b : OrderBook} (h : b.WellFormed)
    (policy : MatchingPolicy) (side : Side) (qty : Qty) : ∃ ts,
    Fills b ts (policy.run b side qty).2 ∧
      (policy.run b side qty).1 = (ts.map FillStep.report).filter policy.returns := by
  cases policy with
  | fifoStack =>
    obtain ⟨hf, hr⟩ := OrderBook.market_fills h side qty
    refine ⟨_, hf, hr.trans ?_⟩
    exact (List.filter_eq_self.mpr fun _ _ => rfl).symm
  | proRata minFill =>
    obtain ⟨hf, hr⟩ := OrderBook.proRata_fills h minFill side qty
    exact ⟨_, hf, hr⟩

/-- The log counts every step that fills anything. -/
theorem executed_fills (policy : MatchingPolicy) (ts : List FillStep) (side : Side) (qty : Qty)
    (id : Nat) : Event.executed id (.market side qty ((ts.map FillStep.report).filter
      policy.returns)) = Fills.sum ts id := by
  induction ts with
  | nil => rfl
  | cons t ts ih =>
    have hsum : Fills.sum (t :: ts) id =
        (if t.id = id then t.filled.toNat else 0) + Fills.sum ts id := rfl
    rw [hsum, ← ih]
    simp only [Event.executed, List.map_cons, List.filter_cons (p := policy.returns)]
    by_cases hr : policy.returns t.report = true
    · rw [if_pos hr, List.filter_cons]
      by_cases hid : t.id = id
      · have hd : decide (t.report.restingOrderId = id) = true := decide_eq_true hid
        rw [if_pos hd, if_pos hid, List.map_cons, List.sum_cons]
        rfl
      · have hd : ¬ decide (t.report.restingOrderId = id) = true := fun hd =>
          hid (of_decide_eq_true hd)
        rw [if_neg hd, if_neg hid, Nat.zero_add]
    · have hz : t.filled = 0 := by
        cases policy with
        | fifoStack => exact absurd rfl hr
        | proRata minFill =>
          simp only [MatchingPolicy.returns, FillStep.report, decide_eq_true_eq,
            UInt64.lt_iff_toNat_lt] at hr
          exact Word.toNat_eq_zero.mp (Nat.eq_zero_of_not_pos hr)
      rw [if_neg hr, hz]
      simp

/-- A log and the queues it belongs to. -/
structure Booked (log : List Event) (B : Queue.Book) : Prop where
  displayed : B.All Queue.Entry.Displayed
  balanced : ∀ id side price qty display, .limit id side price qty display ∈ log → id ≠ 0 →
    id < B.nextId ∧
      B.Balanced side price id qty.toNat (executed log id) (.cancel id ∈ log)
  unfilled : ∀ id, B.nextId ≤ id → executed log id = 0

variable {log : List Event} {B : Queue.Book} {a : Event}

/-- The log is read event by event. -/
theorem executed_append (log : List Event) (a : Event) (id : Nat) :
    executed (log ++ [a]) id = executed log id + a.executed id := by
  simp [executed]

namespace Booked

/-- An event that neither fills nor accepts an order. -/
theorem quiet (h : Booked log B) (ha : ∀ id, a.executed id = 0)
    (hl : ∀ id side price qty display, a = .limit id side price qty display → id = 0) :
    Booked (log ++ [a]) B where
  displayed := h.displayed
  balanced id side price qty display hmem hid := by
    rcases List.mem_append.mp hmem with hmem | hmem
    · obtain ⟨hlt, hb⟩ := h.balanced id side price qty display hmem hid
      rw [executed_append, ha, Nat.add_zero]
      exact ⟨hlt, hb.mono fun hc => List.mem_append_left _ hc⟩
    · exact absurd (hl _ _ _ _ _ (List.mem_singleton.mp hmem).symm) hid
  unfilled id hid := by
    rw [executed_append, ha, h.unfilled id hid]

/-- Later ids. -/
theorem later {n : Nat} (h : Booked log B) (hn : B.nextId ≤ n) :
    Booked log { B with nextId := n } where
  displayed s m hm e he := h.displayed s m (by cases s <;> exact hm) e he
  balanced id side price qty display hmem hid := by
    obtain ⟨hlt, hb⟩ := h.balanced id side price qty display hmem hid
    have hrests (t : Side) (k : Int) (e : Queue.Entry) :
        Queue.Book.Rests { B with nextId := n } t k e ↔ B.Rests t k e := by
      simp only [Queue.Book.Rests, Queue.Book.ladder_withNextId]
    refine ⟨Nat.lt_of_lt_of_le hlt hn, ?_⟩
    simp only [Queue.Book.Balanced, hrests]
    exact hb
  unfilled id hid := h.unfilled id (Nat.le_trans hn hid)

/-- A matching call logs what it executes. -/
theorem matched {b b' : OrderBook} {ts : List FillStep} (h : Booked log b.queues)
    (hw : b.WellFormed) (hf : Fills b ts b') (hn : b.nextOrderId ≤ b'.nextOrderId)
    (ha : ∀ id, a.executed id = Fills.sum ts id)
    (hl : ∀ id side price qty display, a ≠ .limit id side price qty display) :
    Booked (log ++ [a]) b'.queues where
  displayed := hf.displayed h.displayed
  balanced id side price qty display hmem hid := by
    rcases List.mem_append.mp hmem with hmem | hmem
    · obtain ⟨hlt, hb⟩ := h.balanced id side price qty display hmem hid
      rw [executed_append, ha]
      refine ⟨Nat.lt_of_lt_of_le hlt hn, (hf.balanced h.displayed hb).2.mono fun hc => ?_⟩
      exact List.mem_append_left _ hc
    · exact absurd (List.mem_singleton.mp hmem).symm (hl _ _ _ _ _)
  unfilled id hid := by
    have hold : b.queues.nextId ≤ id := Nat.le_trans hn hid
    -- An id that has not been given out rests nowhere and is balanced at size zero.
    have hnone : b.queues.Balanced .buy 0 id 0 0 False := by
      refine Or.inr ⟨fun t k e he hide => ?_, Or.inr rfl⟩
      obtain ⟨L, hL, he⟩ := he
      have hlt := (hw.ordered.bound t _ hL e he).2
      omega
    have hzero : Fills.sum ts id = 0 := by
      rcases (hf.balanced h.displayed hnone).2 with ⟨e, _, _, hsum⟩ | ⟨_, hc | hsum⟩
      · omega
      · exact hc.elim
      · omega
    rw [executed_append, h.unfilled id hold, ha, hzero]

variable {side : Side} {price : Int} {qty display : Qty} {id : Nat}

/-- A new order is booked with nothing executed. -/
theorem limit {B' : Queue.Book} (h : Booked log B) (hn : B'.nextId = B.nextId + 1)
    (hd : B'.All Queue.Entry.Displayed)
    (hold : ∀ s px id size ex gone, id ≠ B.nextId → B.Balanced s px id size ex gone →
      B'.Balanced s px id size ex gone)
    (hnew : B'.Balanced side price B.nextId qty.toNat 0 False) :
    Booked (log ++ [.limit B.nextId side price qty display]) B' where
  displayed := hd
  balanced id s px q d hmem hid := by
    rw [executed_append,
      show Event.executed id (.limit B.nextId side price qty display) = 0 from rfl,
      Nat.add_zero, hn]
    rcases List.mem_append.mp hmem with hmem | hmem
    · obtain ⟨hlt, hb⟩ := h.balanced id s px q d hmem hid
      exact ⟨Nat.lt_succ_of_lt hlt, (hold _ _ _ _ _ _ (Nat.ne_of_lt hlt) hb).mono fun hc =>
        List.mem_append_left _ hc⟩
    · obtain ⟨rfl, rfl, rfl, rfl, rfl⟩ := Event.limit.inj (List.mem_singleton.mp hmem)
      rw [h.unfilled _ (Nat.le_refl _)]
      exact ⟨Nat.lt_succ_self _, hnew.mono False.elim⟩
  unfilled id hid := by
    rw [executed_append, h.unfilled id (by omega)]
    rfl

/-- A cancellation is logged. -/
theorem cancel (h : Booked log B) (ho : B.Ordered) (id : Nat) :
    Booked (log ++ [.cancel id]) (B.cancel id) where
  displayed := h.displayed.cancel id
  balanced j s px q d hmem hid := by
    have hmem' : Event.limit j s px q d ∈ log := by
      simpa using hmem
    obtain ⟨hlt, hb⟩ := h.balanced j s px q d hmem' hid
    rw [executed_append, show Event.executed j (.cancel id) = 0 from rfl, Nat.add_zero,
      Queue.Book.nextId_cancel]
    refine ⟨hlt, (hb.cancel ho id).mono ?_⟩
    rintro (hc | ⟨rfl, _⟩)
    · exact List.mem_append_left _ hc
    · exact List.mem_append_right _ (List.mem_singleton_self _)
  unfilled j hj := by
    rw [Queue.Book.nextId_cancel] at hj
    rw [executed_append, h.unfilled j hj]
    rfl

end Booked

namespace MatchingEngine

open Config

/-- Every accepted limit order is balanced, unless it is cancelled. -/
def Conserved (e : MatchingEngine) : Prop :=
  ∀ id side price qty display, .limit id side price qty display ∈ e.log → id ≠ 0 →
    e.book.queues.Balanced side price id qty.toNat (executed e.log id) (.cancel id ∈ e.log)

/-- The policy matches the order of a call, or of a stop that the call activates. -/
inductive Matches (e : MatchingEngine) (side : Side) (qty : Qty) :
    MatchingEngine → Side → Qty → Prop
  | call : Matches e side qty e side qty
  | nested (e' : MatchingEngine) (t : Task) (K : List Task) (id : Nat) (x : Order) :
      Steps (launch e side qty []) ⟨e', t :: K⟩ → e'.book.stopSlot id = some (t.slot, x) →
      triggered t.last x = true → x.stopType = .stopMarket →
      Matches e side qty (e'.fire id t.slot t.last t.pass) x.side x.qty

/-- The batch of a market order is what its fills report, and each is exact. -/
def ExactFills (e : MatchingEngine) (side : Side) (qty : Qty) : Prop :=
  ∃ ts, Fills e.book ts (e.matched side qty).book ∧
    e.batch side qty = (ts.map FillStep.report).filter e.policy.returns ∧
    ∀ t ∈ ts, t.Exact ∨ t.filled = 0 ∧ t.after.queues = t.before.queues

variable {e : MatchingEngine} {side : Side} {price : Int} {qty display : Qty} {id : Nat}
  {capacity : Nat} {mode : AllocMode} {policy : MatchingPolicy} {K : List Task} {c c' : Config}

/-- `submit_limit` books the order it accepts. -/
theorem booked_limit (hw : e.book.WellFormed) (h : Booked e.log e.book.queues) :
    Booked (e.submitLimit side price qty display).2.log
      (e.submitLimit side price qty display).2.book.queues := by
  obtain ⟨hid, hr⟩ := submitLimit_refines hw side price qty display
  rw [log_submitLimit, hid, hr.queues]
  cases ha : e.book.pool.allocate with
  | none =>
    simp only [limitId, limitQueues, ha, Option.isSome_none, Bool.false_eq_true, if_false]
    exact h.quiet (fun _ => rfl) fun _ _ _ _ _ he => (Event.limit.inj he).1.symm
  | some r =>
    have ho := hw.ordered
    have hadd := OrderBook.addLimitOrder_refines (o := r.1) ha hw side price qty
    have ho' : (e.book.queues.add side price qty).Ordered := by
      rw [← hadd.queues]
      exact hadd.wf.ordered
    have hdisplayed : (e.book.queues.add side price qty).All Queue.Entry.Displayed :=
      h.displayed.add ho fun _ => rfl
    simp only [limitId, limitQueues, ha, Option.isSome_some, if_true]
    split
    · refine h.limit ?_ ?_ ?_ (Queue.Book.balanced_configure ho ho')
      · rw [Queue.Book.nextId_configure]
        rfl
      · exact hdisplayed.configure _ display fun x _ hd h0 => absurd h0 hd
      · exact fun s px j size ex gone hj hb => (hb.add ho hj).configure ho' (Ne.symm hj) display
    · refine h.limit rfl hdisplayed ?_ (Queue.Book.balanced_add ho)
      exact fun s px j size ex gone hj hb => hb.add ho hj

/-- A matched market order is booked. -/
theorem booked_matched (hw : e.book.WellFormed) (h : Booked e.log e.book.queues)
    (side : Side) (qty : Qty) :
    Booked (e.matched side qty).log (e.matched side qty).book.queues := by
  obtain ⟨ts, hf, hbatch⟩ := hw.run_fills e.policy side qty
  refine h.matched (a := .market side qty (e.batch side qty)) hw hf
    (matched_refines hw side qty).ages.next (fun id => ?_)
    (fun _ _ _ _ _ he => Event.noConfusion he)
  rw [batch, hbatch, executed_fills]

/-- Every fill of a matching call is exact. -/
theorem exactFills (hw : e.book.WellFormed) (h : Booked e.log e.book.queues) (side : Side)
    (qty : Qty) : ExactFills e side qty := by
  obtain ⟨ts, hf, hbatch⟩ := hw.run_fills e.policy side qty
  exact ⟨ts, hf, hbatch, hf.exact h.displayed⟩

/-- A launched match is booked as its batch. -/
theorem booked_launch (hw : e.book.WellFormed) (h : Booked e.log e.book.queues) :
    Booked (launch e side qty K).engine.log (launch e side qty K).engine.book.queues := by
  have hm := booked_matched hw h side qty
  rw [launch]
  split <;> exact hm

/-- An activated stop leaves no entry in the queues. -/
theorem booked_fire {o : Ptr} {x : Order} {last : Int} {pass : Nat}
    (hst : e.book.pendingStopStorage = []) (hx : e.book.stopSlot id = some (o, x))
    (h : Booked e.log e.book.queues) :
    Booked (e.fire id o last pass).log (e.fire id o last pass).book.queues := by
  rw [fire_queues hst hx]
  exact h.quiet (a := .trigger id last pass) (fun _ => rfl) fun _ _ _ _ _ he =>
    Event.noConfusion he

end MatchingEngine

namespace Config

open MatchingEngine

variable {c c' : Config} {e : MatchingEngine} {side : Side} {qty : Qty}

/-- Every step of a cascade is booked. -/
theorem Step.booked (h : Step c c') (hc : c.Sound)
    (hb : Booked c.engine.log c.engine.book.queues) :
    Booked c'.engine.log c'.engine.book.queues := by
  obtain ⟨hw, hst⟩ := hc
  cases h with
  | stale e t K hnone =>
    rw [log_stale, book_stale]
    exact hb.quiet (a := .staleRead t.slot) (fun _ => rfl) fun _ _ _ _ _ he =>
      Event.noConfusion he
  | requeue e t K id x hx ht => exact hb
  | market e t K id x hx ht hs =>
    exact booked_launch (fire_wellFormed hw hst hx) (booked_fire hst hx hb)
  | limit e t K id x hx ht hs =>
    exact booked_limit (fire_wellFormed hw hst hx) (booked_fire hst hx hb)

/-- Every configuration of a call is booked. -/
theorem Steps.booked (hw : e.book.WellFormed) (hb : Booked e.log e.book.queues)
    (h : Steps (launch e side qty []) c) : Booked c.engine.log c.engine.book.queues := by
  exact Steps.of_launch (I := fun c => Booked c.engine.log c.engine.book.queues) hw h
    (booked_launch hw hb) fun c c' _ hc hi hs => hs.booked hc hi

end Config

namespace MatchingEngine

open Config

variable {e : MatchingEngine} {capacity : Nat} {mode : AllocMode} {policy : MatchingPolicy}

/-- A new engine has nothing to book. -/
theorem booked_new (capacity : Nat) (mode : AllocMode) (policy : MatchingPolicy) :
    Booked (new (OrderBook.new capacity mode) policy).log
      (new (OrderBook.new capacity mode) policy).book.queues where
  displayed s n hn := by cases s <;> exact absurd hn List.not_mem_nil
  balanced id side price qty display hmem := by simp [new] at hmem
  unfilled id _ := rfl

/-- Every call is booked. -/
theorem Settled.booked (h : e.Settled) (hb : Booked e.log e.book.queues) (a : Call)
    (ha : e.Admissible a) : Booked (e.apply a).log (e.apply a).book.queues := by
  have hw := h.wf
  cases a with
  | limit side price qty display => exact booked_limit hw hb
  | market side qty => exact Steps.booked hw hb (h.market_steps side qty).1
  | stop side stopPrice qty stopType limitPrice display =>
    rw [MatchingEngine.apply]
    cases hal : e.book.pool.allocate with
    | none =>
      rw [submitStop_full hal]
      exact hb.quiet (a := .stop 0 side stopPrice qty stopType limitPrice display) (fun _ => rfl)
        fun _ _ _ _ _ he => Event.noConfusion he
    | some r =>
      have hq := OrderBook.addPendingStop_queues (o := r.1) hal hw side stopPrice qty stopType
        limitPrice display
      have hlater := (hb.later (Nat.le_succ e.book.nextOrderId)).quiet
        (a := .stop e.book.nextOrderId side stopPrice qty stopType limitPrice display)
        (fun _ => rfl) fun _ _ _ _ _ he => Event.noConfusion he
      rw [submitStop_eq hal hw ha, book_record, hq]
      exact hlater
  | cancel id =>
    have hr := cancelOrder_refines hw ha
    rw [MatchingEngine.apply, hr.queues, cancelOrder_log]
    rcases hw.lookup ha with ⟨hf, hloc⟩ | ⟨o, _, _, hf, _⟩
    · rw [hf, Queue.Book.cancel, hloc]
      exact hb
    · rw [hf, Option.isSome_some, if_pos rfl]
      exact hb.cancel hw.ordered id

/-- What is booked is conserved, order by order. -/
theorem conserved_of_booked (h : Booked e.log e.book.queues) : e.Conserved :=
  fun id side price qty display hmem hid => (h.balanced id side price qty display hmem hid).2

/-- Every reachable engine is booked. -/
theorem Reachable.booked (h : Reachable capacity mode policy e) : Booked e.log e.book.queues :=
  Reachable.invariant (I := fun e => Booked e.log e.book.queues) h
    (booked_new capacity mode policy) fun _ a hs hb ha => hs.booked hb a ha

/-- Every accepted order is balanced between calls and inside every cascade, and every matching
call, nested or not, reports exact fills. -/
theorem reachable_conserved (h : Reachable capacity mode policy e) : e.Conserved ∧
    ∀ side qty, (∀ c, Steps (launch e side qty []) c → c.engine.Conserved) ∧
      ∀ e' s q, Matches e side qty e' s q → ExactFills e' s q := by
  have hs := h.settled
  have hb := h.booked
  refine ⟨conserved_of_booked hb, fun side qty => ⟨fun c hc => ?_, fun e' s q hm => ?_⟩⟩
  · exact conserved_of_booked (Steps.booked hs.wf hb hc)
  · cases hm with
    | call => exact exactFills hs.wf hb side qty
    | nested e' t K id x hc hx ht hty =>
      rcases launch_sound hs.wf side qty with hnil | hsound
      · exact absurd (congrArg Config.tasks (Steps.of_nil hc hnil) ▸ hnil) (List.cons_ne_nil _ _)
      · obtain ⟨hw, hst⟩ := Steps.sound hc hsound
        exact exactFills (fire_wellFormed hw hst hx)
          (booked_fire hst hx (Steps.booked hs.wf hb hc)) x.side x.qty

/-- Icebergs, a stop-limit order and a cancellation under the pro-rata policy. -/
def sharesTraded : List Call :=
  [.limit .sell 100 5 2, .limit .sell 100 4 0, .stop .buy 100 6 .stopLimit 90 2, .market .buy 3,
    .limit .sell 101 2 0, .cancel 4, .market .sell 4]

/-- An iceberg and a stop-limit order traded under pro-rata. -/
theorem reachable_conserved_shares :
    (sharesTraded.foldl apply (new (OrderBook.new 8) (.proRata 1))).Conserved ∧
      ∀ side qty, (∀ c, Steps (launch (sharesTraded.foldl apply
          (new (OrderBook.new 8) (.proRata 1))) side qty []) c → c.engine.Conserved) ∧
        ∀ e' s q, Matches (sharesTraded.foldl apply (new (OrderBook.new 8) (.proRata 1)))
          side qty e' s q → ExactFills e' s q :=
  reachable_conserved
    (Run.Reach.foldl Run.Reach.init (by decide +kernel))

end MatchingEngine

end Lob
