import Lob.Core.Run
import Lob.Queue.Conservation
import Lob.Representation.Matching

/-!
# Runs of a book without stops

The operations a stop-free book is driven with, and what each does to the
queues. Every run from an empty book keeps the representation invariant.
-/

namespace Lob

/-- A call on a book of resting orders. -/
inductive Op where
  | add (side : Side) (price : Int) (qty : Qty)
  | cancel (id : Nat)
  | modify (id : Nat) (newPrice : Int) (newQty : Qty)
  | market (side : Side) (qty : Qty)
  | fill (id : Nat) (qty : Qty)
  | configure (id : Nat) (display : Qty)
  deriving DecidableEq, Repr

/-- The id a call is about. -/
def Op.target : Op → Option Nat
  | .add .. | .market .. => none
  | .cancel id | .modify id _ _ | .fill id _ | .configure id _ => some id

namespace OrderBook

/-- The book after a call. -/
def apply (b : OrderBook) : Op → OrderBook
  | .add side price qty => (b.addLimitOrder side price qty).2
  | .cancel id => (b.cancelOrder id).2
  | .modify id newPrice newQty => (b.modifyOrder id newPrice newQty).2
  | .market side qty => (b.marketOrder side qty).2
  | .fill id qty => (b.applyFill id qty).2
  | .configure id display => (b.configureIceberg id display).2

/-- No id names a pending stop. -/
def StopFree (b : OrderBook) : Prop := ∀ id, b.stopSlot id = none

/-- The states of stop-free runs from an empty book. -/
def Reachable (capacity : Nat) (mode : AllocMode) : OrderBook → Prop :=
  Run.Reach apply (fun _ _ => True) (new capacity mode)

end OrderBook

namespace Queue.Book

/-- What a call does to the queues; an addition needs a free slot. -/
def apply (room : Bool) (B : Book) : Op → Book
  | .add side price qty => if room then B.add side price qty else B
  | .cancel id => B.cancel id
  | .modify id newPrice newQty => B.modify id newPrice newQty
  | .market side qty => (B.market side qty).2
  | .fill id qty => (B.applyFill id qty).2
  | .configure id display => B.configure id display

end Queue.Book

namespace OrderBook

variable {b : OrderBook} {capacity : Nat} {mode : AllocMode}

/-- Every call on an id that names no pending stop refines its counterpart on the queues. -/
theorem WellFormed.apply_target (h : b.WellFormed) (op : Op)
    (hs : ∀ id ∈ op.target, b.stopSlot id = none) :
    Refines b (b.apply op) (b.queues.apply b.pool.allocate.isSome op) := by
  cases op with
  | add side price qty =>
    cases ha : b.pool.allocate with
    | none =>
      simp only [OrderBook.apply, addLimitOrder_full ha]
      exact Refines.refl h
    | some r => exact addLimitOrder_refines (o := r.1) ha h side price qty
  | cancel id => exact (h.cancelOrder (hs id rfl)).2
  | modify id newPrice newQty => exact h.modifyOrder (hs id rfl) newPrice newQty
  | market side qty => exact (h.marketOrder side qty).2
  | fill id qty => exact (h.applyFill (hs id rfl) qty).2
  | configure id display => exact h.configureIceberg (hs id rfl) display

theorem WellFormed.apply (h : b.WellFormed) (hs : b.StopFree) (op : Op) :
    Refines b (b.apply op) (b.queues.apply b.pool.allocate.isSome op) :=
  h.apply_target op fun id _ => hs id

theorem StopFree.of_eq {b' : OrderBook} (hs : b.StopFree) (he : b'.stopSlot = b.stopSlot) :
    b'.StopFree := by
  intro id
  rw [he]
  exact hs id

theorem stopFree_new (capacity : Nat) (mode : AllocMode) : (new capacity mode).StopFree := by
  intro id
  rw [stopSlot, findId_new]
  rfl

/-- The representation invariant and the absence of stops, along every run. -/
theorem Reachable.wellFormed (h : Reachable capacity mode b) :
    b.WellFormed ∧ b.StopFree ∧ b.pool.capacity = capacity ∧ b.pool.mode = mode := by
  refine Run.Reach.invariant (I := fun b : OrderBook => b.WellFormed ∧ b.StopFree ∧
    b.pool.capacity = capacity ∧ b.pool.mode = mode) h
    ⟨wellFormed_new capacity mode, stopFree_new capacity mode, rfl, rfl⟩ ?_
  rintro s op ⟨hw, hs, hc, hm⟩ _
  have hr := hw.apply hs op
  exact ⟨hr.wf, hs.of_eq hr.stops, hr.capacity.trans hc, hr.mode.trans hm⟩

/-- An invariant of runs under a guard, which may rely on the representation invariant. -/
theorem invariant_of_guarded {guard : OrderBook → Op → Prop} {I : OrderBook → Prop}
    (h : Run.Reach apply guard (new capacity mode) b) (hinit : I (new capacity mode))
    (hstep : ∀ b op, b.WellFormed → b.StopFree → I b → guard b op → I (b.apply op)) :
    b.WellFormed ∧ b.StopFree ∧ I b := by
  have hwf (b : OrderBook) (h : Run.Reach apply guard (new capacity mode) b) :
      b.WellFormed ∧ b.StopFree := by
    have hreach : Reachable capacity mode b := Run.Reach.mono h fun _ _ _ => trivial
    exact ⟨hreach.wellFormed.1, hreach.wellFormed.2.1⟩
  have hI := Run.Reach.invariant_of h hwf hinit fun b op hb => hstep b op hb.1 hb.2
  exact ⟨(hwf b h).1, (hwf b h).2, hI⟩

/-- What new entries have, and fills and edits keep, every entry of every run has. -/
theorem Reachable.all {P : Queue.Entry → Prop} (hP : Queue.Book.Fills P)
    (hadd : ∀ id qty, P ⟨id, qty, qty, 0, 0⟩)
    (hmodify : ∀ e newQty, P e → P (Queue.Book.modified e newQty))
    (hconfigure : ∀ e display, P e → display ≠ 0 → P (Queue.Book.configured e display))
    (h : Reachable capacity mode b) : b.queues.All P := by
  refine (invariant_of_guarded (I := fun b : OrderBook => b.queues.All P) h ?_ ?_).2.2
  · intro s n hn
    cases s <;> contradiction
  · intro b op hw hs hall _
    rw [(hw.apply hs op).queues]
    cases op with
    | add side price qty =>
      simp only [Queue.Book.apply]
      split
      · exact hall.add hw.ordered (hadd _ _)
      · exact hall
    | cancel id => exact hall.cancel id
    | modify id newPrice newQty =>
      simp only [Queue.Book.apply]
      cases hl : b.queues.locate id with
      | none =>
        rw [Queue.Book.modify, hl]
        exact hall
      | some S =>
        rw [hall.modify_iff hw.ordered (hw.ordered_cancel (hs id)) hl]
        split
        · exact hmodify _ _ (hall.at (Queue.Book.at_of_locate hl)).1
        · exact hadd _ _
    | market side qty => exact hall.market hP side qty
    | fill id qty => exact hall.applyFill hP id qty
    | configure id display =>
      exact hall.configure id display fun e he hd => hconfigure e display he hd

end OrderBook

end Lob
