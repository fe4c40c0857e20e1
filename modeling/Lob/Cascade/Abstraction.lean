import Lob.Cascade.Returns

/-!
# Cascades as trigger queues

Seen from its stops, a cascade is a re-entrant trigger queue: the armed entries are
the slots of registered stops, and what was fired, traded and missed is read off the
log. Every step of the machine is a step of the queue, whose passes begin where the
policy has returned fills.
-/

namespace Lob

/-- An activation of a stop. -/
structure Activation where
  id : Nat
  last : Int
  pass : Nat
  deriving DecidableEq, Repr

/-- The activation an event records. -/
def Event.activation : Event → Option Activation
  | .trigger id last pass => some ⟨id, last, pass⟩
  | _ => none

/-- The queue entry of an activation; `b` knows the slots of the ids. -/
def Activation.task (b : OrderBook) (a : Activation) : Task :=
  ⟨(b.findId a.id).getD 0, a.last, a.pass⟩

/-- The task of a logged activation. -/
def Event.fired (b : OrderBook) (a : Event) : Option Task :=
  a.activation.map (Activation.task b)

/-- The price at which a batch of fills ends. -/
def Event.traded : Event → Option Int
  | .market _ _ fills => fills.getLast?.map Fill.price
  | _ => none

/-- The slot of a stale read. -/
def Event.missed : Event → Option Ptr
  | .staleRead o => some o
  | _ => none

namespace Config

open MatchingEngine

/-- A price meets the stop registered in a slot of `b`. -/
def meets (b : OrderBook) (p : Int) (o : Ptr) : Prop :=
  ∃ id x, b.stopSlot id = some (o, x) ∧ triggered p x = true

/-- The trigger queue of a configuration, for a call that began with book `b` and a log of length
`start`. -/
def abs (b : OrderBook) (start : Nat) (c : Config) : Trigger.State Ptr Int where
  armed := {o | ∃ id x, c.engine.book.stopSlot id = some (o, x)}
  pending := c.engine.pendingStops ++ c.engine.book.pendingStopStorage
  tasks := c.tasks
  fired := (c.engine.log.drop start).filterMap (Event.fired b)
  traded := (c.engine.log.drop start).filterMap Event.traded
  missed := (c.engine.log.drop start).filterMap Event.missed

/-- The configuration occurs in a call that began with book `b` and a log of length `start`. -/
structure Within (b : OrderBook) (start : Nat) (c : Config) : Prop where
  stops : ∀ id r, c.engine.book.stopSlot id = some r → b.stopSlot id = some r
  logged : start ≤ c.engine.log.length
  tasks : ∀ t ∈ c.tasks, t.pass ≤ c.engine.log.length
  fired : ∀ id last pass, .trigger id last pass ∈ c.engine.log.drop start →
    pass ≤ c.engine.log.length ∧ ∃ r, b.stopSlot id = some r

/-- The next step takes the entry `t` and executes its market order, whose fills end at `p`. -/
inductive Opens : Config → Task → Int → Prop
  | market (e : MatchingEngine) (t : Task) (K : List Task) (id : Nat) (x : Order) (p : Int) :
      e.book.stopSlot id = some (t.slot, x) → triggered t.last x = true →
      x.stopType = .stopMarket →
      (e.fire id t.slot t.last t.pass).lastPrice x.side x.qty = some p →
      Opens ⟨e, t :: K⟩ t p

variable {b : OrderBook} {start : Nat} {c c' : Config} {e : MatchingEngine} {side : Side}
  {qty : Qty} {last p : Int} {id pass : Nat} {o : Ptr} {x : Order} {K : List Task} {t : Task}
  {guard : Trigger.State Ptr Int → Task → Int → Prop} {a : Event}

/-- The armed entries are the slots of the pending stops. -/
theorem mem_armed : o ∈ (abs b start c).armed ↔ ∃ id x, c.engine.book.stopSlot id = some (o, x) :=
  Iff.rfl

/-- In a call, a price meets a registered stop exactly when it triggers it. -/
theorem Within.meets_iff (h : Within b start c) (hb : b.WellFormed)
    (hx : c.engine.book.stopSlot id = some (o, x)) : meets b p o ↔ triggered p x = true := by
  have hbx := h.stops id _ hx
  constructor
  · rintro ⟨j, y, hy, ht⟩
    rw [(stopSlot_inj hb hbx hy).2]
    exact ht
  · exact fun ht => ⟨id, x, hbx, ht⟩

/-- A firing is logged as an event of the cascade. -/
theorem within_fire (h : Within b start ⟨e, t :: K⟩) (hw : e.book.WellFormed)
    (hst : e.book.pendingStopStorage = []) (hx : e.book.stopSlot id = some (t.slot, x)) :
    Within b start ⟨e.fire id t.slot t.last t.pass, K⟩ := by
  have hlen : (e.fire id t.slot t.last t.pass).log.length = e.log.length + 1 := by simp [fire]
  constructor
  · intro j r hr
    simp only [fire_stopSlot hw hst hx] at hr
    split at hr
    · contradiction
    · exact h.stops j r hr
  · exact Nat.le_trans h.logged (by simp only [hlen]; omega)
  · intro u hu
    exact Nat.le_trans (h.tasks u (List.mem_cons_of_mem t hu)) (by simp only [hlen]; omega)
  · intro j last pass hj
    simp only [hlen]
    have hlog : start ≤ e.log.length := h.logged
    simp only [fire, log_record, List.drop_append_of_le_length hlog, List.mem_append,
      List.mem_singleton] at hj
    rcases hj with hj | hj
    · exact (h.fired j last pass hj).imp_left Nat.le_succ_of_le
    · obtain ⟨rfl, -, rfl⟩ := Event.trigger.inj hj
      exact ⟨Nat.le_succ_of_le (h.tasks t List.mem_cons_self), _, h.stops j _ hx⟩

section Events

variable (hlog : start ≤ e.log.length)
include hlog

/-- A logged event appends what it activated and what it traded at. -/
theorem abs_record (a : Event) : abs b start ⟨e.record a, K⟩ =
    { abs b start ⟨e, K⟩ with
      fired := (abs b start ⟨e, K⟩).fired ++ (a.fired b).toList
      traded := (abs b start ⟨e, K⟩).traded ++ a.traded.toList
      missed := (abs b start ⟨e, K⟩).missed ++ a.missed.toList } := by
  have hsplit {β : Type} (f : Event → Option β) : ((e.record a).log.drop start).filterMap f =
      (e.log.drop start).filterMap f ++ (f a).toList := by
    rw [log_record, List.drop_append_of_le_length hlog, List.filterMap_append]
    cases hf : f a <;> simp [hf]
  simp only [abs, hsplit, book_record, pendingStops_record]

/-- Reading a stale entry is a miss of the queue. -/
theorem abs_stale (hx : ∀ id x, e.book.stopSlot id ≠ some (t.slot, x))
    (hst : e.book.pendingStopStorage = []) :
    Trigger.Step (meets b) guard (abs b start ⟨e, t :: K⟩) (abs b start ⟨e.stale t, K⟩) := by
  have hdead : t.slot ∉ (abs b start ⟨e, t :: K⟩).armed := fun ⟨id, x, h⟩ => hx id x h
  convert Trigger.Step.miss (abs b start ⟨e, t :: K⟩) t K (e.keeps t) rfl hdead using 1
  have hrec := abs_record (b := b) (K := K) hlog (.staleRead t.slot)
  cases hk : e.keeps t with
  | false =>
    rw [stale, if_neg (by rw [hk]; exact Bool.false_ne_true), hrec]
    simp [abs, Event.fired, Event.activation, Event.traded, Event.missed]
  | true =>
    have hreq : abs b start ⟨(e.record (.staleRead t.slot)).requeue t.slot, K⟩ =
        { abs b start ⟨e.record (.staleRead t.slot), K⟩ with
          pending := (abs b start ⟨e.record (.staleRead t.slot), K⟩).pending ++ [t.slot] } := by
      simp [abs, requeue, hst]
    rw [stale, if_pos hk, hreq, hrec]
    simp [abs, Event.fired, Event.activation, Event.traded, Event.missed]

end Events

/-- Requeueing an entry keeps it in the queue. -/
theorem abs_requeue (h : Within b start ⟨e, t :: K⟩) (hb : b.WellFormed)
    (hst : e.book.pendingStopStorage = []) (hx : e.book.stopSlot id = some (t.slot, x))
    (ht : triggered t.last x = false) :
    Trigger.Step (meets b) guard (abs b start ⟨e, t :: K⟩)
      (abs b start ⟨e.requeue t.slot, K⟩) := by
  have hmeets : ¬ meets b t.last t.slot := by
    rw [h.meets_iff hb hx, ht]
    exact Bool.false_ne_true
  convert Trigger.Step.keep (abs b start ⟨e, t :: K⟩) t K rfl ⟨id, x, hx⟩ hmeets using 1
  simp [abs, requeue, hst]

/-- Activating a stop fires its entry. -/
theorem abs_fire (h : Within b start ⟨e, t :: K⟩) (hw : e.book.WellFormed)
    (hst : e.book.pendingStopStorage = []) (hx : e.book.stopSlot id = some (t.slot, x)) :
    abs b start ⟨e.fire id t.slot t.last t.pass, K⟩ = (abs b start ⟨e, t :: K⟩).fire t K := by
  have hslot : (b.findId id).getD 0 = t.slot := by
    rw [(OrderBook.stopSlot_eq_some.mp (h.stops id _ hx)).1]
    rfl
  have harmed : (abs b start ⟨e.fire id t.slot t.last t.pass, K⟩).armed =
      (abs b start ⟨e, t :: K⟩).armed \ {t.slot} := by
    ext o
    rw [mem_armed, Set.mem_sdiff, mem_armed, Set.mem_singleton_iff]
    simp only [fire_stopSlot hw hst hx]
    constructor
    · rintro ⟨j, y, hy⟩
      by_cases hj : j = id
      · simp [hj] at hy
      · rw [if_neg hj] at hy
        refine ⟨⟨j, y, hy⟩, ?_⟩
        rintro rfl
        exact hj (stopSlot_inj hw hy hx).1
    · rintro ⟨⟨j, y, hy⟩, hne⟩
      refine ⟨j, y, ?_⟩
      rw [if_neg, hy]
      rintro rfl
      have he := hy.symm.trans hx
      simp only [Option.some.injEq, Prod.mk.injEq] at he
      exact hne he.1
  have hrest := abs_record (b := b) (K := K) (e := { e with
    book := (e.book.detachPending id).2.freeOrder (some t.slot) }) h.logged
    (.trigger id t.last t.pass)
  have hrest' : abs b start ⟨e.fire id t.slot t.last t.pass, K⟩ = _ := hrest
  refine Trigger.State.ext harmed ?_ rfl ?_ ?_ ?_
  · exact congrArg (e.pendingStops ++ ·) ((fire_storage hst hx).trans hst.symm)
  · rw [hrest']
    simp [abs, Trigger.State.fire, Event.fired, Event.activation, Activation.task, hslot]
  · rw [hrest']
    simp [abs, Trigger.State.fire, Event.traded]
  · rw [hrest']
    simp [abs, Trigger.State.fire, Event.missed]

/-- A limit order is none of the queue's business. -/
theorem abs_limit (h : Within b start ⟨e, K⟩) (hw : e.book.WellFormed) (side : Side)
    (price : Int) (qty display : Qty) :
    abs b start ⟨(e.submitLimit side price qty display).2, K⟩ = abs b start ⟨e, K⟩ := by
  have hr := (submitLimit_refines hw side price qty display).2
  have hsplit {β : Type} (f : Event → Option β) :
      ((e.submitLimit side price qty display).2.log.drop start).filterMap f =
      (e.log.drop start).filterMap f ++
        (f (.limit (e.submitLimit side price qty display).1 side price qty display)).toList := by
    have hlen : start ≤ e.log.length := h.logged
    rw [log_submitLimit, List.drop_append_of_le_length hlen, List.filterMap_append]
    cases hf : f (.limit (e.submitLimit side price qty display).1 side price qty display) <;>
      simp [hf]
  refine Trigger.State.ext ?_ ?_ rfl ?_ ?_ ?_
  · ext o
    rw [mem_armed, mem_armed, hr.stops]
  · exact congrArg (e.pendingStops ++ ·) hr.storage
  · exact (hsplit _).trans (List.append_nil _)
  · exact (hsplit _).trans (List.append_nil _)
  · exact (hsplit _).trans (List.append_nil _)

/-- A market order appears in the queue with the price its fills end at. -/
theorem abs_matched (h : Within b start ⟨e, K⟩) (hw : e.book.WellFormed) (side : Side)
    (qty : Qty) : abs b start ⟨e.matched side qty, K⟩ = { abs b start ⟨e, K⟩ with
      traded := (abs b start ⟨e, K⟩).traded ++ (e.lastPrice side qty).toList } := by
  have hm := matched_refines hw side qty
  have hrec := abs_record (b := b) (K := K)
    (e := { e with book := (e.policy.run e.book side qty).2 }) h.logged
    (.market side qty (e.batch side qty))
  refine Trigger.State.ext ?_ ?_ rfl ?_ ?_ ?_
  · ext o
    have hs : (e.matched side qty).book.stopSlot = e.book.stopSlot := hm.stops
    rw [mem_armed, hs]
    rfl
  · exact congrArg (e.pendingStops ++ ·) hm.storage
  · refine (congrArg Trigger.State.fired hrec).trans ?_
    simp [abs, Event.fired, Event.activation]
  · exact (congrArg Trigger.State.traded hrec).trans rfl
  · refine (congrArg Trigger.State.missed hrec).trans ?_
    simp [abs, Event.missed]

/-- A market order without fills changes nothing in the queue. -/
theorem abs_launch_none (h : Within b start ⟨e, K⟩) (hw : e.book.WellFormed)
    (hl : e.lastPrice side qty = none) :
    abs b start (launch e side qty K) = abs b start ⟨e, K⟩ := by
  rw [launch_none hl, abs_matched h hw, hl, Option.toList_none, List.append_nil]

/-- A market order with fills begins a pass. -/
theorem abs_launch_some (h : Within b start ⟨e, K⟩) (hw : e.book.WellFormed)
    (hl : e.lastPrice side qty = some p) :
    abs b start (launch e side qty K) = (abs b start ⟨e, K⟩).begin p (e.log.length + 1) := by
  have hb : abs b start (begin (e.matched side qty) p K) = { abs b start ⟨e.matched side qty, K⟩
      with
      pending := []
      tasks := ((abs b start ⟨e.matched side qty, K⟩).pending.map fun o =>
        ⟨o, p, (e.matched side qty).log.length⟩) ++ K } := by
    simp [abs, begin, OrderBook.takePendingStops]
    rfl
  have hlen : (e.matched side qty).log.length = e.log.length + 1 := by
    simp [matched]
  rw [launch_some hl, hb, abs_matched h hw, hl, hlen]
  rfl

/-- The passes so far have begun before the log got longer. -/
theorem Within.pass_lt (h : Within b start ⟨e, K⟩) :
    ∀ t ∈ (abs b start ⟨e, K⟩).tasks ++ (abs b start ⟨e, K⟩).fired,
      t.pass < e.log.length + 1 := by
  intro t ht
  rcases List.mem_append.mp ht with ht | ht
  · exact Nat.lt_succ_of_le (h.tasks t ht)
  · obtain ⟨a, ha, hat⟩ := List.mem_filterMap.mp ht
    cases a <;> simp only [Event.fired, Event.activation, Option.map_none, Option.map_some,
      reduceCtorEq, Option.some.injEq] at hat
    subst hat
    exact Nat.lt_succ_of_le (h.fired _ _ _ ha).1

/-- An event that is no activation. -/
theorem within_record (h : Within b start ⟨e, K⟩)
    (ha : ∀ id last pass, a ≠ .trigger id last pass) : Within b start ⟨e.record a, K⟩ := by
  have hlog : start ≤ e.log.length := h.logged
  have hlen : (e.record a).log.length = e.log.length + 1 := by simp
  constructor
  · exact h.stops
  · simp only [hlen]
    exact Nat.le_succ_of_le hlog
  · intro u hu
    simp only [hlen]
    exact Nat.le_succ_of_le (h.tasks u hu)
  · intro id last pass hid
    simp only [log_record, List.drop_append_of_le_length hlog, List.mem_append,
      List.mem_singleton] at hid
    simp only [hlen]
    rcases hid with hid | hid
    · exact (h.fired id last pass hid).imp_left Nat.le_succ_of_le
    · exact absurd hid.symm (ha id last pass)

/-- Only the stops and the log matter. -/
theorem Within.congr {e' : MatchingEngine} (h : Within b start ⟨e, K⟩)
    (hs : e'.book.stopSlot = e.book.stopSlot) (hlog : e'.log = e.log) :
    Within b start ⟨e', K⟩ := by
  obtain ⟨hstops, hlogged, htasks, hfired⟩ := h
  simp only [← hlog, ← hs] at hstops hlogged htasks hfired
  exact ⟨hstops, hlogged, htasks, hfired⟩

/-- A launched order is logged as an event of the cascade. -/
theorem within_launch (h : Within b start ⟨e, K⟩) (hw : e.book.WellFormed) :
    Within b start (launch e side qty K) := by
  have hm := (matched_refines hw side qty).stops
  have hmatched : Within b start ⟨e.matched side qty, K⟩ :=
    (within_record (a := .market side qty (e.batch side qty)) h (by simp)).congr hm rfl
  cases hl : e.lastPrice side qty with
  | none =>
    rw [launch_none hl]
    exact hmatched
  | some p =>
    rw [launch_some hl]
    refine ⟨hmatched.stops, hmatched.logged, ?_, hmatched.fired⟩
    intro t ht
    rcases List.mem_append.mp ht with ht | ht
    · obtain ⟨o, _, rfl⟩ := List.mem_map.mp ht
      exact Nat.le_refl _
    · exact hmatched.tasks t ht

/-- Every step stays within the cascade. -/
theorem Step.within (h : Step c c') (hc : c.Sound) (hin : Within b start c) :
    Within b start c' := by
  obtain ⟨hw, hst⟩ := hc
  have htail {e : MatchingEngine} {t : Task} {K : List Task} (h : Within b start ⟨e, t :: K⟩) :
      Within b start ⟨e, K⟩ :=
    ⟨h.stops, h.logged, fun u hu => h.tasks u (List.mem_cons_of_mem t hu), h.fired⟩
  cases h with
  | stale e t K hnone =>
    have hrec := within_record (a := .staleRead t.slot) (htail hin) (by simp)
    exact hrec.congr (by rw [book_stale, book_record]) (by rw [log_stale, log_record])
  | requeue e t K id x hx ht => exact (htail hin).congr rfl rfl
  | market e t K id x hx ht hs =>
    exact within_launch (within_fire hin hw hst hx) (fire_wellFormed hw hst hx)
  | limit e t K id x hx ht hs =>
    have hfired : (e.fire id t.slot t.last t.pass).book.WellFormed := fire_wellFormed hw hst hx
    have hr := (submitLimit_refines hfired x.side x.price x.qty x.displayQty).2
    exact (within_record (within_fire hin hw hst hx) (by simp)).congr hr.stops rfl

/-- A step of the cascade is a step of the queue. -/
theorem Step.abs (h : Step c c') (hc : c.Sound) (hin : Within b start c) (hb : b.WellFormed)
    (hguard : ∀ t p, Opens c t p → guard (abs b start c) t p) :
    Trigger.Step (meets b) guard (abs b start c) (abs b start c') := by
  obtain ⟨hw, hst⟩ := hc
  have hdue {e : MatchingEngine} {t : Task} {K : List Task} {id : Nat} {x : Order}
      (hin : Within b start ⟨e, t :: K⟩) (hx : e.book.stopSlot id = some (t.slot, x))
      (ht : triggered t.last x = true) : (Config.abs b start ⟨e, t :: K⟩).Due (meets b) t :=
    ⟨⟨id, x, hx⟩, (hin.meets_iff hb hx).mpr ht⟩
  cases h with
  | stale e t K hnone => exact abs_stale hin.logged hnone hst
  | requeue e t K id x hx ht => exact abs_requeue hin hb hst hx ht
  | market e t K id x hx ht hs =>
    have hfired := within_fire hin hw hst hx
    cases hl : (e.fire id t.slot t.last t.pass).lastPrice x.side x.qty with
    | none =>
      rw [abs_launch_none hfired (fire_wellFormed hw hst hx) hl, abs_fire hin hw hst hx]
      exact .fire _ t K rfl (hdue hin hx ht)
    | some p =>
      rw [abs_launch_some hfired (fire_wellFormed hw hst hx) hl, abs_fire hin hw hst hx]
      refine .trade _ t K p _ rfl (hdue hin hx ht) ?_ fun u hu => ?_
      · exact hguard t p (.market e t K id x p hx ht hs hl)
      · have hlt := hin.pass_lt u hu
        simp only [fire, log_record, List.length_append, List.length_singleton]
        omega
  | limit e t K id x hx ht hs =>
    rw [abs_limit (within_fire hin hw hst hx) (fire_wellFormed hw hst hx),
      abs_fire hin hw hst hx]
    exact .fire _ t K rfl (hdue hin hx ht)

/-- Before the cascade nothing of it is logged. -/
theorem within_start : Within e.book e.log.length ⟨e, []⟩ where
  stops _ _ hr := hr
  logged := Nat.le_refl _
  tasks t ht := by simp at ht
  fired id last pass hid := by
    rw [List.drop_length] at hid
    simp at hid

/-- A call begins with the first pass, unless it trades nothing. -/
theorem abs_start (hw : e.book.WellFormed) (side : Side) (qty : Qty) :
    e.lastPrice side qty = none ∧ Config.abs e.book e.log.length (launch e side qty []) =
        Config.abs e.book e.log.length ⟨e, []⟩ ∨
      ∃ p, e.lastPrice side qty = some p ∧
        Config.abs e.book e.log.length (launch e side qty []) =
          (Config.abs e.book e.log.length ⟨e, []⟩).begin p (e.log.length + 1) := by
  cases hl : e.lastPrice side qty with
  | none => exact Or.inl ⟨rfl, abs_launch_none within_start hw hl⟩
  | some p => exact Or.inr ⟨p, rfl, abs_launch_some within_start hw hl⟩

/-- Every configuration of a call is reached in its trigger queue, under a guard that the market
orders of its stops meet. -/
theorem Steps.abs (guard : Trigger.State Ptr Int → Task → Int → Prop) (hw : e.book.WellFormed)
    (h : Steps (launch e side qty []) c) (hguard : ∀ c, Steps (launch e side qty []) c →
      c.Sound → Within e.book e.log.length c → ∀ t p, Opens c t p →
      guard (Config.abs e.book e.log.length c) t p) :
    Within e.book e.log.length c ∧ Trigger.Steps (meets e.book) guard
      (Config.abs e.book e.log.length (launch e side qty []))
      (Config.abs e.book e.log.length c) := by
  refine Steps.of_launch (I := fun c => Within e.book e.log.length c ∧ Trigger.Steps (meets e.book)
    guard (Config.abs e.book e.log.length (launch e side qty []))
    (Config.abs e.book e.log.length c)) hw h ?_ ?_
  · exact ⟨within_launch within_start hw, Relation.ReflTransGen.refl⟩
  · intro c c' hs hc ih hstep
    refine ⟨hstep.within hc ih.1, ih.2.tail (hstep.abs hc ih.1 hw ?_)⟩
    exact hguard c hs hc ih.1

end Config

end Lob
