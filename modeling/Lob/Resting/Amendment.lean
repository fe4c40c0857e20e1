import Lob.Queue.Amendment
import Lob.Representation.Accounts
import Lob.Resting.Disclosure

/-!
# Amending orders over runs

An order is to execute no more than the quantity it was last amended to. In
place, `modify_order` respects the executed quantity under `KeepsTotal`, the
condition on the order and the new size, and under no other.
-/

namespace Lob

/-- A call of a run that amends orders; an iceberg is split right after it has been added. -/
inductive Deal where
  | rest (side : Side) (price : Int) (qty display : Qty)
  | modify (id : Nat) (newPrice : Int) (newQty : Qty)
  | market (side : Side) (qty : Qty)
  | fill (id : Nat) (qty : Qty)
  deriving DecidableEq, Repr

/-- A book with the quantities executed against its orders, and those they may execute. -/
structure Tally where
  book : OrderBook
  executed : Nat → Nat
  /-- The size an order was added with or last amended to, or what had been executed by then. -/
  limit : Nat → Nat

namespace Tally

/-- An empty book. -/
def new (capacity : Nat) (mode : AllocMode) : Tally := ⟨.new capacity mode, fun _ => 0, fun _ => 0⟩

/-- `f` with the value at `id` replaced. -/
def set (f : Nat → Nat) (id v : Nat) : Nat → Nat := fun j => if j = id then v else f j

/-- Make a call and account for it. -/
def step (a : Tally) : Deal → Tally
  | .rest side price qty display =>
    let (id, b) := a.book.addLimitOrder side price qty
    { a with book := if 0 < display then (b.configureIceberg id display).2 else b
             limit := if id = 0 then a.limit else set a.limit id qty.toNat }
  | .modify id newPrice newQty =>
    { a with book := (a.book.modifyOrder id newPrice newQty).2
             limit := match a.book.findId id with
              | none => a.limit
              | some o =>
                if newPrice = (a.book.mem o).price then
                  set a.limit id (max (a.executed id) newQty.toNat)
                else set a.limit a.book.nextOrderId newQty.toNat }
  | .market side qty =>
    let (fills, b) := a.book.marketOrder side qty
    { a with book := b
             executed := fun id => a.executed id +
              Queue.filledQty (fills.filter fun f => f.restingOrderId = id) }
  | .fill id qty =>
    let (filled, b) := a.book.applyFill id qty
    { a with book := b, executed := fun j => a.executed j + if id = j then filled.toNat else 0 }

/-- What a modification at the same price is to leave of a resting order: its new size less what
has been executed, or nothing when that is more. -/
def Amended (a : Tally) : Deal → Prop
  | .modify id newPrice newQty => ∀ o, a.book.findId id = some o →
      newPrice = (a.book.mem o).price →
        let x := (a.book.modifyOrder id newPrice newQty).2.mem o
        if a.executed id ≤ newQty.toNat then
          a.executed id + x.remainingQty.toNat + x.hiddenQty.toNat = newQty.toNat
        else x.remainingQty = 0 ∧ x.hiddenQty = 0
  | _ => True

/-- A call that amends as it should and executes no order beyond its limit. -/
structure Respects (a : Tally) (d : Deal) : Prop where
  amended : a.Amended d
  within : ∀ id, (a.step d).executed id ≤ (a.step d).limit id

/-- The modifications that amend as they should: in place, an increase that does not run over the
signed range, or one that does and stays above what is executed or hidden; a decrease when
nothing is hidden and nothing executed, or nothing to be left. -/
def KeepsTotal (a : Tally) : Deal → Prop
  | .modify id newPrice newQty => ∀ o, a.book.findId id = some o →
      newPrice = (a.book.mem o).price → (a.book.mem o).entry.Amends (a.executed id) newQty
  | _ => True

variable {a : Tally} {id : Nat} {side : Side} {price newPrice : Int} {qty newQty display : Qty}
  {o : Ptr}

/-- The invariant of the runs. -/
structure Sound (a : Tally) : Prop where
  wf : a.book.WellFormed
  stopFree : a.book.StopFree
  covered : a.book.queues.Covered a.executed a.limit

theorem sound_new (capacity : Nat) (mode : AllocMode) : (new capacity mode).Sound where
  wf := OrderBook.wellFormed_new capacity mode
  stopFree := OrderBook.stopFree_new capacity mode
  covered := by
    have hnone (s : Side) (px : Int) (e : Queue.Entry) :
        ¬ (OrderBook.new capacity mode).queues.Rests s px e := by
      rintro ⟨L, hL, _⟩
      cases s <;> contradiction
    exact ⟨fun s px e he => absurd he (hnone s px e), fun s px e he => absurd he (hnone s px e),
      fun _ => Nat.le_refl _, fun _ _ => rfl⟩

/-- Fills count as executed. -/
theorem covered_fills {b b' : OrderBook} {ts : List FillStep} {ex limit : Nat → Nat}
    (h : Fills b ts b') (hc : b.queues.Covered ex limit) :
    b'.queues.Covered (fun id => ex id + Fills.sum ts id) limit := by
  induction h generalizing ex with
  | nil b => exact hc
  | cons t ts b ht _ ih =>
    have hnext : t.after.queues.Covered
        (fun id => ex id + if t.id = id then t.filled.toNat else 0) limit := by
      rcases ht.effect with ⟨S, agg, hS, _, hfilled, _, hafter⟩ | ⟨_, hz, _, hafter⟩
      · rw [hafter]
        refine hc.fill ht.wf.ordered hS ?_
        rw [hfilled]
        exact Word.min_le_right _ _
      · rw [hafter, hz]
        simpa using hc
    have hrest := ih hnext
    simp only [Nat.add_assoc] at hrest
    exact hrest

theorem Sound.rest (h : a.Sound) : (a.step (.rest side price qty display)).Sound := by
  cases ha : a.book.pool.allocate with
  | none =>
    have hadd : a.book.addLimitOrder side price qty = (0, a.book) :=
      OrderBook.addLimitOrder_full ha
    have hzero : a.book.findId 0 = none := by
      cases hf : a.book.findId 0 with
      | none => rfl
      | some o => exact absurd (h.wf.table 0 o hf).2 (Nat.lt_irrefl 0)
    have hsame : a.step (.rest side price qty display) = a := by
      simp only [step, hadd, OrderBook.configureIceberg, hzero, ite_self, if_true]
    rw [hsame]
    exact h
  | some r =>
    have hr := OrderBook.addLimitOrder_refines (o := r.1) ha h.wf side price qty
    have hs := h.stopFree.of_eq hr.stops
    have hid : (a.book.addLimitOrder side price qty).1 = a.book.nextOrderId := by
      rw [OrderBook.addLimitOrder_eq (o := r.1) ha]
    have hne : a.book.nextOrderId ≠ 0 := Nat.ne_of_gt (OrderBook.Grows.nextOrderId_pos h.wf)
    have hc := h.covered.add h.wf.ordered side price qty
    have hlimit : (a.step (.rest side price qty display)).limit =
        set a.limit a.book.nextOrderId qty.toNat := by
      simp only [step, hid, if_neg hne]
    have hex : a.executed a.book.nextOrderId = 0 := h.covered.fresh _ (Nat.le_refl _)
    rw [← hr.queues] at hc
    by_cases hd : 0 < display
    · have hrc := hr.wf.configureIceberg (hs a.book.nextOrderId) display
      have hbook : (a.step (.rest side price qty display)).book =
          ((a.book.addLimitOrder side price qty).2.configureIceberg
            a.book.nextOrderId display).2 := by
        simp only [step, hid, if_pos hd]
      refine ⟨hbook ▸ hrc.wf, hbook ▸ hs.of_eq hrc.stops, ?_⟩
      rw [hlimit, hbook, hrc.queues]
      exact hc.configure hr.wf.ordered hex
    · have hbook : (a.step (.rest side price qty display)).book =
          (a.book.addLimitOrder side price qty).2 := by
        simp only [step, if_neg hd]
      refine ⟨hbook ▸ hr.wf, hbook ▸ hs, ?_⟩
      rw [hlimit, hbook]
      exact hc

theorem Sound.market (h : a.Sound) : (a.step (.market side qty)).Sound := by
  obtain ⟨hts, hfills⟩ := OrderBook.market_fills h.wf side qty
  have hr := (h.wf.marketOrder side qty).2
  have hc := covered_fills hts h.covered
  simp only [Fills.sum_eq, ← hfills] at hc
  exact ⟨hr.wf, h.stopFree.of_eq hr.stops, hc⟩

theorem Sound.fill (h : a.Sound) : (a.step (.fill id qty)).Sound := by
  obtain ⟨hres, hr⟩ := h.wf.applyFill (h.stopFree id) qty
  have hc := h.covered.applyFill h.wf.ordered id qty
  rw [← hres, ← hr.queues] at hc
  exact ⟨hr.wf, h.stopFree.of_eq hr.stops, hc⟩

/-- What the order holds before and after a modification in place. -/
theorem Sound.total (h : a.Sound) (hf : a.book.findId id = some o) (newQty : Qty) :
    (a.book.mem o).entry.total = (a.book.mem o).qty.toNat - a.executed id ∧
      ((a.book.modifyOrder id (a.book.mem o).price newQty).2.mem o).entry =
        Queue.Book.modified (a.book.mem o).entry newQty := by
  obtain ⟨hon, _⟩ := OrderBook.on_of_findId h.wf h.stopFree hf
  have hrest := h.covered.rest _ _ _ (OrderBook.WellFormed.rests_iff.mpr ⟨o, hon, rfl⟩)
  have hid : (a.book.mem o).entry.id = id := (h.wf.table id o hf).1
  rw [hid] at hrest
  exact ⟨hrest, congrArg Order.entry (OrderBook.mem_modify_inPlace h.wf h.stopFree hf)⟩

/-- A modification amends as it should exactly under the condition. -/
theorem Sound.amended_iff (h : a.Sound) (d : Deal) : a.Amended d ↔ a.KeepsTotal d := by
  cases d with
  | rest side price qty display => exact Iff.rfl
  | market side qty => exact Iff.rfl
  | fill id qty => exact Iff.rfl
  | modify id newPrice newQty =>
    refine forall₂_congr fun o hf => forall_congr' fun hpx => ?_
    subst hpx
    obtain ⟨hrest, hmod⟩ := h.total hf newQty
    rw [← Queue.Entry.amends_iff hrest newQty, ← hmod]
    have htotal (x : Order) : x.entry.total = x.remainingQty.toNat + x.hiddenQty.toNat := rfl
    simp only [htotal, ← Word.toNat_eq_zero]
    split
    · omega
    · omega

theorem Sound.modify (h : a.Sound) (hk : a.KeepsTotal (.modify id newPrice newQty)) :
    (a.step (.modify id newPrice newQty)).Sound := by
  have hr := h.wf.modifyOrder (h.stopFree id) newPrice newQty
  refine ⟨hr.wf, h.stopFree.of_eq hr.stops, ?_⟩
  have hqueues : (a.step (.modify id newPrice newQty)).book.queues =
      a.book.queues.modify id newPrice newQty := hr.queues
  rw [hqueues]
  rcases h.wf.lookup (h.stopFree id) with ⟨hf, hloc⟩ | ⟨o, i, l, hf, hid, _, hi, ho, hloc⟩
  · rw [Queue.Book.modify, hloc]
    simp only [step, hf]
    exact h.covered
  · have hat := OrderBook.WellFormed.at_of_level hi ho
    rw [hid] at hat
    rw [Queue.Book.modify, hloc]
    simp only [step, hf]
    by_cases hpx : newPrice = (a.book.mem o).price
    · obtain ⟨hrest, _⟩ := h.total hf newQty
      have hm := (Queue.Entry.amends_iff hrest newQty).mpr (hk o hf hpx)
      rw [if_pos hpx, if_pos hpx]
      exact h.covered.rewrite h.wf.ordered hat hm
    · rw [if_neg hpx, if_neg hpx]
      have hc := h.covered.cancel h.wf.ordered id
      have hnext : (a.book.queues.cancel id).nextId = a.book.nextOrderId :=
        Queue.Book.nextId_cancel
      have hadd := hc.add (h.wf.ordered_cancel (h.stopFree id)) (a.book.mem o).side newPrice newQty
      rw [hnext] at hadd
      exact hadd

/-- The calls of a run that meets the condition keep the invariant. -/
theorem Sound.step (h : a.Sound) (d : Deal) (hk : a.KeepsTotal d) : (a.step d).Sound := by
  cases d with
  | rest side price qty display => exact h.rest
  | modify id newPrice newQty => exact h.modify hk
  | market side qty => exact h.market
  | fill id qty => exact h.fill

theorem Sound.respects_iff (h : a.Sound) (d : Deal) : a.Respects d ↔ a.KeepsTotal d :=
  ⟨fun hr => (h.amended_iff d).mp hr.amended,
    fun hk => ⟨(h.amended_iff d).mpr hk, (h.step d hk).covered.within⟩⟩

/-- In every run, all modifications amend as they should and no order executes more than it was
last amended to iff every modification keeps the total. -/
theorem run_respects_iff (capacity : Nat) (mode : AllocMode) (ds : List Deal) :
    Run.Allowed step Respects (new capacity mode) ds ↔
      Run.Allowed step KeepsTotal (new capacity mode) ds :=
  Run.allowed_congr (fun _ d h => h.respects_iff d)
    (fun _ d h hr => h.step d ((h.amended_iff d).mp hr.amended)) (sound_new capacity mode)

/-- A decrease counts the executed quantity again. -/
theorem decrease_exceeds : ¬ Run.Allowed step Respects (new 4 .pool)
    [.rest .sell 100 10 0, .market .buy 4, .modify 1 100 8] := by
  rintro ⟨_, _, ⟨hamended, _⟩, _⟩
  have h := hamended 3 (by decide) (by decide +kernel)
  exact absurd h (by decide +kernel)

end Tally

end Lob
