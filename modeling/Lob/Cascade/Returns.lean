import Lob.Cascade.Machine
import Lob.Representation.Detach

/-!
# A market order returns

Every nested call of `submit_market` has freed a registered stop, and no call registers
one, so the recursion is no deeper than the number of stops. The machine's steps lead
from a launched market order to the engine that the recursive definition returns.
-/

namespace Lob

namespace MatchingEngine

/-- The ids of the registered stops. -/
def stops (e : MatchingEngine) : Set Nat := {id | e.book.stopSlot id ≠ none}

variable {e e' : MatchingEngine} {side : Side} {qty : Qty} {last : Int} {id pass : Nat} {o : Ptr}
  {x : Order} {K : List Task}

/-- Only finitely many stops are registered. -/
theorem stops_finite (h : e.book.WellFormed) : e.stops.Finite := by
  refine (Set.finite_lt_nat e.book.nextOrderId).subset fun id hid => ?_
  by_contra hlt
  exact hid (stopSlot_of_ge h (Nat.le_of_not_lt hlt))

/-- The stops are those of the registered slots. -/
theorem stops_congr (h : e'.book.stopSlot = e.book.stopSlot) : e'.stops = e.stops := by
  rw [stops, stops, h]

section Fire

variable (h : e.book.WellFormed) (hst : e.book.pendingStopStorage = [])
  (hx : e.book.stopSlot id = some (o, x))
include h hst hx

/-- Activating a stop leaves the book well formed. -/
theorem fire_wellFormed : (e.fire id o last pass).book.WellFormed :=
  (OrderBook.detach_shrinks h hx hst).wellFormed h

omit h in
/-- Activating a stop stores none. -/
theorem fire_storage : (e.fire id o last pass).book.pendingStopStorage = [] :=
  (OrderBook.detach_frame hx hst).2.1.trans hst

/-- Firing a stop unregisters it and no other. -/
theorem fire_stopSlot : (e.fire id o last pass).book.stopSlot =
    fun j => if j = id then none else e.book.stopSlot j :=
  OrderBook.detach_stopSlot h hx hst

omit h in
/-- A pending stop rests in no queue. -/
theorem fire_queues : (e.fire id o last pass).book.queues = e.book.queues :=
  (OrderBook.detach_frame hx hst).1

/-- The id of an activated stop is unmapped for good. -/
theorem fire_ages : OrderBook.Ages e.book (e.fire id o last pass).book :=
  (OrderBook.detach_shrinks h hx hst).ages

/-- The activated stop is the one that goes. -/
theorem fire_stops : (e.fire id o last pass).stops = e.stops \ {id} := by
  ext j
  simp only [stops, fire_stopSlot h hst hx, Set.mem_ofPred_eq, Set.mem_sdiff, Set.mem_singleton_iff]
  by_cases hj : j = id <;> simp [hj]

/-- Every activation leaves fewer stops. -/
theorem fire_ncard : (e.fire id o last pass).stops.ncard < e.stops.ncard := by
  rw [fire_stops h hst hx]
  refine Set.ncard_sdiff_singleton_lt_of_mem ?_ (stops_finite h)
  simp [stops, hx]

end Fire

/-- The slot of a registered stop determines the stop. -/
theorem stopSlot_inj {b : OrderBook} {j : Nat} {y : Order} (h : b.WellFormed)
    (hx : b.stopSlot id = some (o, x)) (hy : b.stopSlot j = some (o, y)) : id = j ∧ x = y := by
  obtain ⟨hf, _, rfl⟩ := OrderBook.stopSlot_eq_some.mp hx
  obtain ⟨hg, _, rfl⟩ := OrderBook.stopSlot_eq_some.mp hy
  exact ⟨(h.table id o hf).1.symm.trans (h.table j o hg).1, rfl⟩

/-- A slot passes the test of `process_triggers` exactly when a stop is registered in it. -/
theorem pendingStop_iff {b : OrderBook} (h : b.WellFormed) : pendingStop b o = true ↔
    ∃ id x, b.stopSlot id = some (o, x) := by
  simp only [pendingStop, Bool.and_eq_true, decide_eq_true_eq]
  constructor
  · rintro ⟨hs, hf⟩
    exact ⟨_, _, OrderBook.stopSlot_eq_some.mpr ⟨hf, hs, rfl⟩⟩
  · rintro ⟨id, x, hx⟩
    obtain ⟨hf, hs, _⟩ := OrderBook.stopSlot_eq_some.mp hx
    exact ⟨hs, h.findId_orderId hf⟩

end MatchingEngine

namespace Config

open MatchingEngine

variable {c c' : Config} {e : MatchingEngine} {side : Side} {qty : Qty} {last : Int}
  {id pass depth : Nat} {o : Ptr} {x : Order} {K : List Task} {t : Task}

/-- Without fills no pass begins. -/
theorem launch_none (h : e.lastPrice side qty = none) :
    launch e side qty K = ⟨e.matched side qty, K⟩ := by
  rw [launch, h]

/-- With fills a pass begins at the last price. -/
theorem launch_some (h : e.lastPrice side qty = some last) :
    launch e side qty K = begin (e.matched side qty) last K := by
  rw [launch, h]

/-- Beginning a pass leaves the book alone. -/
theorem begin_wellFormed (h : e.book.WellFormed) :
    (begin e last K).engine.book.WellFormed := by
  obtain ⟨h₁, h₂, h₃, h₄, h₅, h₆, h₇, h₈⟩ := h
  exact ⟨h₁, h₂, h₃, h₄, h₅, h₆, h₇, h₈⟩

/-- A pass begins with nothing stored. -/
theorem begin_sound (h : e.book.WellFormed) : (begin e last K).Sound :=
  ⟨begin_wellFormed h, rfl⟩

/-- A launched market order leaves a well-formed book with the same stops. -/
theorem launch_wellFormed (h : e.book.WellFormed) :
    (launch e side qty K).engine.book.WellFormed := by
  have hm := (matched_refines h side qty).wf
  rw [launch]
  split
  · exact hm
  · exact begin_wellFormed hm

/-- Launching an order registers and removes no stop. -/
theorem launch_stopSlot (h : e.book.WellFormed) :
    (launch e side qty K).engine.book.stopSlot = e.book.stopSlot := by
  have hm := (matched_refines h side qty).stops
  rw [launch]
  split <;> exact hm

/-- Launching an order stores no stop. -/
theorem launch_storage (h : e.book.WellFormed) (hst : e.book.pendingStopStorage = []) :
    (launch e side qty K).engine.book.pendingStopStorage = [] := by
  rw [launch]
  split
  · exact (matched_refines h side qty).storage.trans hst
  · rfl

/-- Every step keeps the configuration sound. -/
theorem Step.sound (h : Step c c') (hc : c.Sound) : c'.Sound := by
  obtain ⟨hw, hst⟩ := hc
  cases h with
  | stale e t K hnone =>
    constructor
    · rw [book_stale]
      exact hw
    · rw [book_stale]
      exact hst
  | requeue e t K id x hx ht => exact ⟨hw, hst⟩
  | market e t K id x hx ht hs =>
    exact ⟨launch_wellFormed (fire_wellFormed hw hst hx),
      launch_storage (fire_wellFormed hw hst hx) (fire_storage hst hx)⟩
  | limit e t K id x hx ht hs =>
    have hfired : (e.fire id t.slot t.last t.pass).book.WellFormed := fire_wellFormed hw hst hx
    have hr := (submitLimit_refines hfired x.side x.price x.qty x.displayQty).2
    exact ⟨hr.wf, hr.storage.trans (fire_storage hst hx)⟩

/-- A step keeps every stop or unregisters it. -/
theorem Step.stopSlot (h : Step c c') (hc : c.Sound) (j : Nat) :
    c'.engine.book.stopSlot j = none ∨
      c'.engine.book.stopSlot j = c.engine.book.stopSlot j := by
  obtain ⟨hw, hst⟩ := hc
  have hfire {e : MatchingEngine} {id : Nat} {o : Ptr} {x : Order} {t : Task}
      (hw : e.book.WellFormed) (hst : e.book.pendingStopStorage = [])
      (hx : e.book.stopSlot id = some (o, x)) :
      (e.fire id o t.last t.pass).book.stopSlot j = none ∨
        (e.fire id o t.last t.pass).book.stopSlot j = e.book.stopSlot j := by
    rw [fire_stopSlot hw hst hx]
    by_cases hj : j = id
    · exact Or.inl (if_pos hj)
    · exact Or.inr (if_neg hj)
  cases h with
  | stale e t K hnone => exact Or.inr (by rw [book_stale])
  | requeue e t K id x hx ht => exact Or.inr rfl
  | market e t K id x hx ht hs =>
    rw [launch_stopSlot (fire_wellFormed hw hst hx)]
    exact hfire hw hst hx
  | limit e t K id x hx ht hs =>
    have hfired : (e.fire id t.slot t.last t.pass).book.WellFormed := fire_wellFormed hw hst hx
    have hr := (submitLimit_refines hfired x.side x.price x.qty x.displayQty).2
    rw [hr.stops]
    exact hfire hw hst hx

/-- No step registers a stop. -/
theorem Step.stops_subset (h : Step c c') (hc : c.Sound) : c'.engine.stops ⊆ c.engine.stops := by
  intro j hj
  rcases h.stopSlot hc j with hn | he
  · exact absurd hn hj
  · rw [stops, Set.mem_ofPred_eq, ← he]
    exact hj

/-- Every run keeps the book well formed and the storage empty. -/
theorem Steps.sound (h : Steps c c') (hc : c.Sound) : c'.Sound := by
  induction h with
  | refl => exact hc
  | tail _ hs ih => exact hs.sound ih

/-- No run registers a stop. -/
theorem Steps.stops_subset (h : Steps c c') (hc : c.Sound) :
    c'.engine.stops ⊆ c.engine.stops := by
  induction h with
  | refl => exact Set.Subset.rfl
  | tail hs hst ih => exact (hst.stops_subset (Steps.sound hs hc)).trans ih

/-- A launched market order has begun a pass, or there is nothing left to do. -/
theorem launch_sound (hw : e.book.WellFormed) (side : Side) (qty : Qty) :
    (launch e side qty []).tasks = [] ∨ (launch e side qty []).Sound := by
  cases hl : e.lastPrice side qty with
  | none =>
    rw [launch_none hl]
    exact Or.inl rfl
  | some p =>
    rw [launch_some hl]
    exact Or.inr (begin_sound (matched_refines hw side qty).wf)

/-- Without tasks there is no step. -/
theorem Steps.of_nil (h : Steps c c') (hc : c.tasks = []) : c' = c := by
  cases Relation.ReflTransGen.cases_head h with
  | inl he => exact he.symm
  | inr hs =>
    obtain ⟨d, hs, _⟩ := hs
    cases hs <;> exact absurd hc (List.cons_ne_nil _ _)

/-- What a launched market order has and every step keeps, every configuration of the call
has. -/
theorem Steps.of_launch {I : Config → Prop} (hw : e.book.WellFormed)
    (h : Steps (launch e side qty []) c) (hl : I (launch e side qty []))
    (hstep : ∀ c c', Steps (launch e side qty []) c → c.Sound → I c → Step c c' → I c') :
    I c := by
  rcases launch_sound hw side qty with hnil | hsound
  · rw [Steps.of_nil h hnil]
    exact hl
  · induction h with
    | refl => exact hl
    | tail hs hc ih => exact hstep _ _ hs (Steps.sound hs hsound) ih hc

/-- `detach_pending` on the slot of a registered stop. -/
theorem detach_eq (hx : e.book.stopSlot id = some (o, x)) (hw : e.book.WellFormed)
    (hst : e.book.pendingStopStorage = []) :
    (e.book.mem o).orderId = id ∧ e.detach o = (some (e.book.mem o),
      { e with book := (e.book.detachPending id).2.freeOrder (some o) }) := by
  have hid := (hw.table id o (OrderBook.stopSlot_eq_some.mp hx).1).1
  have hmem : (e.book.dropId id).mem o = e.book.mem o := congrFun OrderBook.mem_dropId o
  rw [detach, hid, OrderBook.detachPending_eq hx hst]
  simp only [hmem, true_and]

/-- `detach_pending` finds nothing for a slot in which no stop is registered. -/
theorem detach_stale (hw : e.book.WellFormed) (hst : e.book.pendingStopStorage = [])
    (hs : (e.book.mem o).stopType ≠ .none) (hx : ∀ id x, e.book.stopSlot id ≠ some (o, x)) :
    e.detach o = (none, e) := by
  have hf : e.book.findId (e.book.mem o).orderId = none := by
    cases hf : e.book.findId (e.book.mem o).orderId with
    | none => rfl
    | some q =>
      obtain rfl := hw.slotId o q hf
      exact absurd (OrderBook.stopSlot_eq_some.mpr ⟨hf, hs, rfl⟩) (hx _ _)
  have hb : { e.book with pendingStopStorage := [] } = e.book := by
    rw [← hst]
  simp only [detach, OrderBook.detachPending, hst, List.find?_nil, List.eraseP_nil, hb, hf]

/-- One iteration of the loop is one step, and what the nested call does. -/
theorem triggerEntry_steps {submit : MatchingEngine → Side → Qty → MatchingEngine}
    (hc : Sound ⟨e, t :: K⟩)
    (hsubmit : ∀ id x, e.book.stopSlot id = some (t.slot, x) →
      Steps (launch (e.fire id t.slot t.last t.pass) x.side x.qty K)
        ⟨submit (e.fire id t.slot t.last t.pass) x.side x.qty, K⟩) :
    Steps ⟨e, t :: K⟩ ⟨triggerEntry submit t.last t.pass e t.slot, K⟩ := by
  obtain ⟨hw, hst⟩ := hc
  by_cases hlive : ∃ id x, e.book.stopSlot id = some (t.slot, x)
  · obtain ⟨id, x, hx⟩ := hlive
    obtain ⟨hid, hdet⟩ := detach_eq hx hw hst
    obtain ⟨_, hs, hd⟩ := OrderBook.stopSlot_eq_some.mp hx
    have hfire : ({ e with book := (e.book.detachPending id).2.freeOrder (some t.slot) } :
        MatchingEngine).record (.trigger id t.last t.pass) =
        e.fire id t.slot t.last t.pass := rfl
    simp only [triggerEntry, if_pos ((pendingStop_iff hw).mpr ⟨id, x, hx⟩), hdet, hid, hfire]
    generalize e.book.mem t.slot = d at hs hd
    have hside : d.side = x.side := by rw [← hd]; rfl
    have hqty : d.qty = x.qty := by rw [← hd]; rfl
    have hprice : d.price = x.price := by rw [← hd]; rfl
    have hdisplay : d.displayQty = x.displayQty := by rw [← hd]; rfl
    have htype : d.stopType = x.stopType := by rw [← hd]; rfl
    have htrig : triggered t.last d = triggered t.last x := by rw [← hd]; rfl
    simp only [htrig, hside, hqty, hprice, hdisplay]
    cases htr : triggered t.last x with
    | false =>
      have hstep := Relation.ReflTransGen.single (Step.requeue e t K id x hx htr)
      cases hty : d.stopType with
      | none => exact absurd hty hs
      | stopMarket => exact hstep
      | stopLimit => exact hstep
    | true =>
      cases hty : d.stopType with
      | none => exact absurd hty hs
      | stopMarket =>
        exact Relation.ReflTransGen.head (Step.market e t K id x hx htr (htype ▸ hty))
          (hsubmit id x hx)
      | stopLimit =>
        exact Relation.ReflTransGen.single (Step.limit e t K id x hx htr (htype ▸ hty))
  · have hnone : ∀ id x, e.book.stopSlot id ≠ some (t.slot, x) :=
      fun id x hx => hlive ⟨id, x, hx⟩
    have hrec : (if pendingStop e.book t.slot = true then e else e.record (.staleRead t.slot)) =
        e.record (.staleRead t.slot) := if_neg fun hp => hlive ((pendingStop_iff hw).mp hp)
    have hstale := Relation.ReflTransGen.single (Step.stale e t K hnone)
    have hdet (hs : (e.book.mem t.slot).stopType ≠ .none) :
        (e.record (.staleRead t.slot)).detach t.slot = (none, e.record (.staleRead t.slot)) :=
      detach_stale (e := e.record (.staleRead t.slot)) hw hst hs hnone
    simp only [stale, keeps] at hstale
    simp only [triggerEntry, hrec, book_record]
    cases hty : (e.book.mem t.slot).stopType with
    | none =>
      simp only [hty, ne_eq, not_true_eq_false, decide_false, Bool.false_and, Bool.false_eq_true,
        if_false] at hstale
      exact hstale
    | stopMarket =>
      simp only [hdet (by rw [hty]; exact StopType.noConfusion)]
      cases htr : triggered t.last (e.book.mem t.slot) <;>
        simpa [hty, htr, requeue, record] using hstale
    | stopLimit =>
      simp only [hdet (by rw [hty]; exact StopType.noConfusion)]
      cases htr : triggered t.last (e.book.mem t.slot) <;>
        simpa [hty, htr, requeue, record] using hstale

/-- The loop over a queue. -/
theorem foldl_steps {submit : MatchingEngine → Side → Qty → MatchingEngine} (q : List Ptr)
    (hw : e.book.WellFormed) (hst : e.book.pendingStopStorage = [])
    (hdepth : e.stops.ncard ≤ depth)
    (hsubmit : ∀ (e : MatchingEngine) (side : Side) (qty : Qty) (K : List Task),
      e.book.WellFormed → e.stops.ncard < depth →
      Steps (launch e side qty K) ⟨submit e side qty, K⟩) :
    Steps ⟨e, (q.map fun o => ⟨o, last, pass⟩) ++ K⟩
      ⟨q.foldl (triggerEntry submit last pass) e, K⟩ := by
  induction q generalizing e with
  | nil => exact Relation.ReflTransGen.refl
  | cons o q ih =>
    have hsound : Sound ⟨e, (⟨o, last, pass⟩ :: q.map fun o => ⟨o, last, pass⟩) ++ K⟩ := ⟨hw, hst⟩
    have hhead := triggerEntry_steps hsound fun id x hx =>
      hsubmit _ x.side x.qty _ (fire_wellFormed hw hst hx)
        (Nat.lt_of_lt_of_le (fire_ncard hw hst hx) hdepth)
    have hnext := Steps.sound hhead hsound
    have hcard := Set.ncard_le_ncard (Steps.stops_subset hhead hsound) (stops_finite hw)
    exact hhead.trans (ih hnext.wf hnext.storage (Nat.le_trans hcard hdepth))

/-- With a depth above the number of stops, the recursion returns what the machine reaches. -/
theorem submitMarketDepth_steps (depth : Nat) (hw : e.book.WellFormed)
    (hdepth : e.stops.ncard < depth) (side : Side) (qty : Qty) (K : List Task) :
    Steps (launch e side qty K) ⟨(submitMarketDepth depth e side qty).2, K⟩ ∧
      (submitMarketDepth depth e side qty).1 = e.batch side qty := by
  induction depth generalizing e side qty K with
  | zero => omega
  | succ depth ih =>
    have hm := matched_refines hw side qty
    rw [submitMarketDepth]
    cases hlast : (e.batch side qty).getLast? with
    | none =>
      have hl : e.lastPrice side qty = none := by rw [lastPrice, hlast]; rfl
      rw [launch_none hl]
      simp only [batch] at hlast
      simp only [hlast]
      exact ⟨Relation.ReflTransGen.refl, rfl⟩
    | some f =>
      have hl : e.lastPrice side qty = some f.price := by rw [lastPrice, hlast]; rfl
      rw [launch_some hl]
      simp only [batch] at hlast
      simp only [hlast]
      refine ⟨?_, rfl⟩
      have hs : (begin (e.matched side qty) f.price K).engine.stops = e.stops :=
        stops_congr hm.stops
      have hd : (begin (e.matched side qty) f.price K).engine.stops.ncard ≤ depth :=
        hs ▸ Nat.le_of_lt_succ hdepth
      have hb : (begin (e.matched side qty) f.price K).engine.book.WellFormed :=
        begin_wellFormed hm.wf
      exact foldl_steps _ hb rfl hd fun e side qty K hw hd => (ih hw hd side qty K).1

end Config

end Lob
