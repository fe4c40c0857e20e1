import Lob.Engine.Runs
import Lob.Representation.Stops
import Lob.Resting.Runs

/-!
# Pending stops and the resting book

Runs of calls on an engine and on its book, where a call by id may name a pending
stop. A call spares the resting book when every level shows what it showed, and a
cancelled stop leaves the lists of pending stops. The calls that spare it are
told by the stop and the levels at its limit price.
-/

namespace Lob

/-- A call on the engine, or on its book from outside. -/
inductive Command where
  | book (op : Op)
  | pend (side : Side) (stopPrice : Int) (qty : Qty) (stopType : StopType) (limitPrice : Int)
      (display : Qty)
  | limit (side : Side) (price : Int) (qty display : Qty)
  | market (side : Side) (qty : Qty)
  | stop (side : Side) (stopPrice : Int) (qty : Qty) (stopType : StopType) (limitPrice : Int)
      (display : Qty)
  deriving DecidableEq, Repr

/-- Stops have one of the two stop types. -/
def Command.Typed : Command → Prop
  | .book _ | .limit .. | .market .. => True
  | .pend _ _ _ stopType _ _ | .stop _ _ _ stopType _ _ => stopType ≠ .none

instance (c : Command) : Decidable c.Typed := by
  cases c <;> simp only [Command.Typed] <;> infer_instance

/-- What a call on the pending stop `x` must be for the levels to show what they showed. A
cancelled stop stays in a list of pending stops. -/
def OrderBook.StopEdit (b : OrderBook) (x : Order) : Op → Prop
  | .add .. | .market .. => True
  | .cancel _ => False
  | .modify _ newPrice newQty =>
    newPrice = x.price ∧ b.Harmless x (Queue.Book.modifiedRemaining x.entry newQty)
  | .fill _ qty => (∀ n ∈ b.ladder x.side, n.1 ≠ x.price) ∨
    qty < x.remainingQty ∧ b.Harmless x (x.remainingQty - qty)
  | .configure _ display => display = 0 ∨ b.Harmless x (min display x.qty)

/-- A call on a pending stop other than its cancellation shows unless it meets the condition. -/
theorem OrderBook.stopEdit_sparedIff {b : OrderBook} {id : Nat} {o : Ptr} {x : Order} {op : Op}
    (h : b.WellFormed) (hx : b.stopSlot id = some (o, x)) (ht : id ∈ op.target)
    (hc : op ≠ .cancel id) : SparedIff b (b.apply op) o (b.StopEdit x op) := by
  cases op with
  | add side price qty => contradiction
  | market side qty => contradiction
  | cancel j =>
    obtain rfl : j = id := Option.some.inj ht
    exact absurd rfl hc
  | modify j newPrice newQty =>
    obtain rfl : j = id := Option.some.inj ht
    exact modifyOrder_stop h hx newPrice newQty
  | fill j qty =>
    obtain rfl : j = id := Option.some.inj ht
    exact applyFill_stop h hx qty
  | configure j display =>
    obtain rfl : j = id := Option.some.inj ht
    exact configureIceberg_stop h hx display

namespace MatchingEngine

/-- The engine after a call. -/
def perform (e : MatchingEngine) : Command → MatchingEngine
  | .book op => { e with book := e.book.apply op }
  | .pend side stopPrice qty stopType limitPrice display =>
    { e with book := (e.book.addPendingStop side stopPrice qty stopType limitPrice display).2 }
  | .limit side price qty display => (e.submitLimit side price qty display).2
  | .market side qty => (e.submitMarket side qty).2
  | .stop side stopPrice qty stopType limitPrice display =>
    (e.submitStop side stopPrice qty stopType limitPrice display).2

/-- No run from here activates the stop `id`. -/
def Inert (e : MatchingEngine) (id : Nat) : Prop :=
  ∀ e', Run.Reach perform (fun _ c => c.Typed) e e' →
    ∀ last pass, Event.trigger id last pass ∉ e'.log.drop e.log.length

/-- A call by an id that denotes a pending stop leaves every level as it was, and a stop whose
cancellation is reported is in no list of pending stops and is never activated. -/
def Spares (e : MatchingEngine) : Command → Prop
  | .book op => ∀ id ∈ op.target, ∀ o x, e.book.stopSlot id = some (o, x) →
    OrderBook.Untouched e.book (e.book.apply op) ∧
      (op = .cancel id → (e.book.cancelOrder id).1 = true →
        o ∉ e.pendingStops ∧ o ∉ (e.book.cancelOrder id).2.pendingStopStorage ∧
          (e.perform (.book op)).Inert id)
  | _ => True

/-- A call by an id that denotes a pending stop is one that does not show. -/
def Meets (e : MatchingEngine) : Command → Prop
  | .book op => ∀ id ∈ op.target, ∀ o x, e.book.stopSlot id = some (o, x) → e.book.StopEdit x op
  | _ => True

variable {e e' : MatchingEngine} {id : Nat} {o : Ptr} {x : Order} {f : Order → Order}

theorem filed_new (capacity : Nat) (mode : AllocMode) (policy : MatchingPolicy) :
    (new (OrderBook.new capacity mode) policy).Filed :=
  (settled_new capacity mode policy).filed

/-- A stop that is registered in the book's list is filed. -/
theorem Filed.registers (h : e.Filed) {r : Ptr × OrderPool} (ha : e.book.pool.allocate = some r)
    {side : Side} {stopPrice limitPrice : Int} {qty display : Qty} {stopType : StopType}
    (hst : stopType ≠ .none)
    (hb : e'.book = (e.book.addPendingStop side stopPrice qty stopType limitPrice display).2)
    (hp : ∀ p ∈ e.pendingStops, p ∈ e'.pendingStops) : e'.Filed := by
  obtain ⟨o, pool⟩ := r
  have hg := OrderBook.addPendingStop_grows ha h.wf hst side stopPrice qty limitPrice display
  have hslot := OrderBook.addPendingStop_stopSlot ha h.wf hst side stopPrice qty limitPrice display
  have hstorage : e'.book.pendingStopStorage = e.book.pendingStopStorage ++ [o] := by
    rw [hb, OrderBook.addPendingStop_eq ha]
  constructor
  · rw [hb]
    exact hg.wellFormed h.wf
  · intro j p y hy
    rw [hb, hslot] at hy
    rw [hstorage]
    simp only at hy
    split at hy
    · obtain rfl : o = p := congrArg Prod.fst (Option.some.inj hy)
      simp
    · rcases List.mem_append.mp (h.held j p y hy) with hm | hm
      · exact List.mem_append_left _ (hp p hm)
      · exact List.mem_append_right _ (List.mem_append_left _ hm)

/-- Writing the slot of a stop keeps the stops filed. -/
theorem Filed.writes (h : e.Filed) (hx : e.book.stopSlot id = some (o, x)) (hf : Order.Quiet f)
    (hb : e'.book = e.book.writeOrder o f) (hp : e'.pendingStops = e.pendingStops) : e'.Filed := by
  constructor
  · rw [hb]
    exact OrderBook.wellFormed_writeOrder h.wf hx hf
  · intro j p y hy
    rw [hb] at hy
    obtain ⟨z, hz⟩ := OrderBook.stopSlot_writeOrder hf hy
    rw [hb, hp]
    exact h.held j p z hz

/-- A cancelled stop stays in the list it was filed in. -/
theorem Filed.cancel_listed (h : e.Filed) (hx : e.book.stopSlot id = some (o, x)) :
    (e.book.cancelOrder id).1 = true ∧
      (o ∈ e.pendingStops ∨ o ∈ (e.book.cancelOrder id).2.pendingStopStorage) := by
  have hf := (OrderBook.stopSlot_eq_some.mp hx).1
  have hstorage : (e.book.cancelOrder id).2.pendingStopStorage = e.book.pendingStopStorage := by
    simp only [OrderBook.cancelOrder, hf]
    refine OrderBook.pendingStopStorage_dropId.trans ?_
    split
    · simp only [OrderBook.eraseLevel_eq_put]
      exact OrderBook.pendingStopStorage_setLadder _
    · rfl
  refine ⟨?_, ?_⟩
  · simp only [OrderBook.cancelOrder, hf]
  · rw [hstorage]
    exact List.mem_append.mp (h.held id o x hx)

/-- A call spares the resting book iff it meets the condition. -/
theorem Filed.spares_iff (h : e.Filed) (c : Command) : e.Spares c ↔ e.Meets c := by
  cases c with
  | book op =>
    constructor
    · intro hs id ht o x hx
      obtain ⟨hu, hcancel⟩ := hs id ht o x hx
      by_cases hc : op = .cancel id
      · obtain ⟨hok, hlisted⟩ := h.cancel_listed hx
        obtain ⟨hp, hst, _⟩ := hcancel hc hok
        exact absurd hlisted (not_or.mpr ⟨hp, hst⟩)
      · exact (OrderBook.stopEdit_sparedIff h.wf hx ht hc).shows hu
    · intro hm id ht o x hx
      have hedit := hm id ht o x hx
      have hc : op ≠ .cancel id := by
        rintro rfl
        exact hedit
      have hs := OrderBook.stopEdit_sparedIff h.wf hx ht hc
      exact ⟨(hs.untouched_iff h.wf hx).mpr hedit, fun he => absurd he hc⟩
  | pend => exact Iff.rfl
  | limit => exact Iff.rfl
  | market => exact Iff.rfl
  | stop => exact Iff.rfl

/-- A call that meets the condition keeps every stop filed. -/
theorem Filed.perform (h : e.Filed) (c : Command) (ht : c.Typed) (hm : e.Meets c) :
    (e.perform c).Filed := by
  cases c with
  | book op =>
    by_cases hstop : ∃ id ∈ op.target, ∃ r, e.book.stopSlot id = some r
    · obtain ⟨id, hid, ⟨o, x⟩, hx⟩ := hstop
      have hedit := hm id hid o x hx
      have hc : op ≠ .cancel id := by
        rintro rfl
        exact hedit
      obtain ⟨f, hf, hb⟩ := (OrderBook.stopEdit_sparedIff h.wf hx hid hc).writes hedit
      exact h.writes hx hf hb rfl
    · have hnone : ∀ id ∈ op.target, e.book.stopSlot id = none := by
        intro id hid
        by_contra hne
        exact hstop ⟨id, hid, Option.ne_none_iff_exists'.mp hne⟩
      exact h.refines (h.wf.apply_target op hnone) rfl
  | pend side stopPrice qty stopType limitPrice display =>
    cases ha : e.book.pool.allocate with
    | none =>
      simp only [MatchingEngine.perform, OrderBook.addPendingStop_full ha]
      exact h
    | some r => exact h.registers ha ht rfl fun _ hp => hp
  | limit side price qty display =>
    exact h.refines (submitLimit_refines h.wf side price qty display).2 rfl
  | market side qty => exact h.market side qty
  | stop side stopPrice qty stopType limitPrice display =>
    cases ha : e.book.pool.allocate with
    | none =>
      simp only [MatchingEngine.perform, submitStop_full ha]
      exact ⟨h.wf, h.held⟩
    | some r =>
      simp only [MatchingEngine.perform, submitStop_eq ha h.wf ht]
      exact h.registers ha ht rfl fun _ hp => List.mem_append_left _ hp

/-- In a run from an empty engine every call spares the resting book iff every call meets the
condition. -/
theorem run_spares_iff (capacity : Nat) (mode : AllocMode) (policy : MatchingPolicy)
    (cs : List Command) :
    Run.Allowed perform (fun e c => c.Typed ∧ e.Spares c)
        (new (OrderBook.new capacity mode) policy) cs ↔
      Run.Allowed perform (fun e c => c.Typed ∧ e.Meets c)
        (new (OrderBook.new capacity mode) policy) cs := by
  refine Run.allowed_congr (I := Filed) ?_ ?_ (filed_new capacity mode policy)
  · intro e c h
    exact and_congr_right fun _ => h.spares_iff c
  · intro e c h hc
    exact h.perform c hc.1 ((h.spares_iff c).mp hc.2)

/-- Cancelling a stop at the price of a resting order drops the level of that order, and leaves
the stop in the engine's list. -/
theorem cancel_drops_level :
    let e := [Command.book (.add .buy 10 5), .stop .buy 12 3 .stopLimit 10 0].foldl perform
      (new (OrderBook.new 4))
    e.book.levels .buy = [(10, 1, ⟨5, [⟨1, 5, 5, 0, 0⟩]⟩)] ∧
      (e.book.stopSlot 2).map Prod.fst = some 2 ∧
      (e.book.cancelOrder 2).1 = true ∧
      (e.perform (.book (.cancel 2))).book.levels .buy = [] ∧
      2 ∈ (e.perform (.book (.cancel 2))).pendingStops ∧
      ¬ e.Spares (.book (.cancel 2)) := by
  intro e
  have hlevels : e.book.levels .buy = [(10, 1, ⟨5, [⟨1, 5, 5, 0, 0⟩]⟩)] := by decide
  have hslot : (e.book.stopSlot 2).map Prod.fst = some 2 := by decide
  have hgone : (e.perform (.book (.cancel 2))).book.levels .buy = [] := by decide
  refine ⟨hlevels, hslot, by decide, hgone, by decide, ?_⟩
  intro hs
  obtain ⟨⟨o, x⟩, hx, _⟩ := Option.map_eq_some_iff.mp hslot
  have hu : (e.perform (.book (.cancel 2))).book.levels .buy = e.book.levels .buy :=
    (hs 2 rfl o x hx).1 .buy
  rw [hgone, hlevels] at hu
  contradiction

end MatchingEngine

end Lob
