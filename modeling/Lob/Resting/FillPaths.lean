import Lob.Core.Loop
import Lob.Resting.Aggregate
import Lob.Resting.Execution

/-!
# The two fill paths

`market_order` fills the head of the best level in its own loop, `apply_fill` an
order it looks up. As long as no fill reaches half the word range, the two do
the same to the book, and the loop may as well be made of calls of `apply_fill`.
-/

namespace Lob

namespace Queue

/-- The display size and what is hidden fit into a word, so that no slice reaches half of it. -/
def Entry.Sliced (e : Entry) : Prop := e.display.toNat + e.hidden.toNat < 2 ^ 64

/-- Neither what the entry shows nor any slice to come reaches half the word range. -/
structure Entry.Narrow (e : Entry) : Prop where
  remaining : e.remaining.toNat < 2 ^ 63
  sliced : e.Sliced

theorem Entry.sliced_refill {e : Entry} (h : e.Sliced) : e.refill.Sliced := by
  have hle := Word.min_le_right e.display e.hidden
  have hhidden : e.refill.hidden.toNat = e.hidden.toNat - (min e.display e.hidden).toNat :=
    Word.toNat_sub hle
  rw [Sliced] at h ⊢
  have hdisplay : e.refill.display = e.display := rfl
  rw [hdisplay, hhidden]
  omega

theorem sliced_fills : Book.Fills Entry.Sliced where
  take _ _ h _ := h
  refill _ h _ _ := Entry.sliced_refill h

theorem narrow_fills : Book.Fills Entry.Narrow where
  take e amt h ha := by
    refine ⟨?_, h.sliced⟩
    have hremaining : (e.take amt).remaining.toNat = e.remaining.toNat - amt.toNat :=
      Word.toNat_sub ha
    have hrem := h.remaining
    omega
  refill e h _ _ := by
    refine ⟨?_, Entry.sliced_refill h.sliced⟩
    have hremaining : e.refill.remaining.toNat = min e.display.toNat e.hidden.toNat :=
      Word.toNat_min _ _
    have hsliced := h.sliced
    rw [Entry.Sliced] at hsliced
    omega

end Queue

namespace OrderBook

/-- One round of filling through `apply_fill`: the head of the best level is filled for what is
left of the quantity. -/
def fillHead (s : Side) (w : Sweep) : Sweep :=
  match w.book.ladder s with
  | [] => w
  | (px, l) :: _ =>
    match l.head with
    | none => w
    | some cur =>
      let id := (w.book.mem cur).orderId
      let (filled, book) := w.book.applyFill id (min w.toFill (w.book.mem cur).remainingQty)
      { book, toFill := w.toFill - filled, fills := w.fills ++ [⟨id, px, filled⟩] }

/-- The loop of these rounds ends with the fills and the book of `market_order`. -/
def PathsAgree (b : OrderBook) (side : Side) (qty : Qty) : Prop :=
  ∃ n, let w := Loop.run (Sweep.active side.opposite) (fillHead side.opposite) n ⟨b, qty, []⟩
    w.active side.opposite = false ∧ w.fills = (b.marketOrder side qty).1 ∧
      w.book = (b.marketOrder side qty).2

variable {b : OrderBook} {s : Side} {w : Sweep} {capacity : Nat} {mode : AllocMode}

theorem Reachable.sliced (h : Reachable capacity mode b) : b.queues.All Queue.Entry.Sliced := by
  refine h.all Queue.sliced_fills (fun _ _ => ?_) (fun _ _ he => he) (fun e display _ _ => ?_)
  · simp [Queue.Entry.Sliced]
  · have hq := e.qty.toNat_lt
    have hd := display.toNat_lt
    simp only [Queue.Entry.Sliced, Queue.Book.configured]
    split
    · next hlt =>
      rw [Word.toNat_sub (UInt64.le_of_lt hlt)]
      rw [UInt64.lt_iff_toNat_lt] at hlt
      omega
    · exact hd

/-- A round fills as an iteration of `market_order` does. -/
theorem fillHead_eq (h : w.book.WellFormed) (hn : w.book.queues.All Queue.Entry.Narrow) :
    fillHead s w = sweepStep s w := by
  cases hv : w.book.ladder s with
  | nil => simp only [fillHead, sweepStep, hv]
  | cons n rest =>
    obtain ⟨px, l⟩ := n
    obtain ⟨cur, hcur⟩ := h.atHead hv
    have hl : w.book.findLevel (w.book.mem cur).side (w.book.mem cur).price = some (0, l) := by
      rw [hcur.price, hcur.side]
      exact h.findLevel_eq_some.mpr hcur.level
    have hnarrow := (hn.at (WellFormed.at_of_level hcur.level hcur.mem)).1
    have hsmall : (min w.toFill (w.book.mem cur).remainingQty).toNat < 2 ^ 63 := by
      have hrem : (w.book.mem cur).remainingQty.toNat < 2 ^ 63 := hnarrow.remaining
      rw [Word.toNat_min]
      omega
    have hmin : min (min w.toFill (w.book.mem cur).remainingQty) (w.book.mem cur).remainingQty =
        min w.toFill (w.book.mem cur).remainingQty :=
      Word.min_eq_left (Word.min_le_right _ _)
    have hagg : l.adjustAggregate (-(min w.toFill (w.book.mem cur).remainingQty).toInt64) =
        l.decreaseAggregate (min w.toFill (w.book.mem cur).remainingQty) := by
      simp only [PriceLevel.adjustAggregate, PriceLevel.decreaseAggregate,
        Queue.adjusted_neg_toInt64 hsmall]
    rw [sweepStep_cons hv hcur.head hcur.price]
    simp only [fillHead, hv, hcur.head]
    rw [applyFill_eq h hcur.mapped hl, hmin, hagg, hcur.side, hcur.price]

/-- What the rounds keep. -/
theorem fillHead_narrow (h : w.book.WellFormed ∧ w.book.queues.All Queue.Entry.Narrow) :
    (sweepStep s w).book.WellFormed ∧ (sweepStep s w).book.queues.All Queue.Entry.Narrow := by
  obtain ⟨hr, hview⟩ := h.1.sweepStep (s := s)
  have hbook : (sweepStep s w).book.queues = (Queue.sweepStep s w.view).book :=
    congrArg Queue.Sweep.book hview
  refine ⟨hr.wf, ?_⟩
  rw [hbook]
  exact h.2.sweepStep Queue.narrow_fills

/-- In every reachable book whose level totals are below half the word range, the fill paths
agree. -/
theorem reachable_pathsAgree (hb : Reachable capacity mode b) (hbound : b.Bounded) (side : Side)
    (qty : Qty) : b.PathsAgree side qty := by
  obtain ⟨hw, _⟩ := hb.wellFormed
  have hnarrow : b.queues.All Queue.Entry.Narrow := by
    intro s n hn e he
    have hshown := bounded_iff.mp hbound s n hn
    exact ⟨Nat.lt_of_le_of_lt (Queue.Level.remaining_le_shown he) hshown, hb.sliced s n hn e he⟩
  have hrun : Loop.run (Sweep.active side.opposite) (fillHead side.opposite)
      (b.sweepBound side.opposite qty) ⟨b, qty, []⟩ =
      sweep side.opposite (b.sweepBound side.opposite qty) ⟨b, qty, []⟩ := by
    rw [sweep_eq_run]
    exact Loop.run_congr (I := fun w => w.book.WellFormed ∧ w.book.queues.All Queue.Entry.Narrow)
      (fun w hw _ => fillHead_eq hw.1 hw.2) (fun w hw _ => fillHead_narrow hw) ⟨hw, hnarrow⟩ _
  refine ⟨b.sweepBound side.opposite qty, ?_⟩
  simp only [hrun]
  exact ⟨hw.marketOrder_done side qty, rfl, rfl⟩

/-- An iceberg filled through its slices, then the next level. -/
theorem reachable_pathsAgree_slices :
    (([.add .sell 100 5, .configure 1 2, .add .sell 101 4] : List Op).foldl apply
      (new 4 .pool)).PathsAgree .buy 7 :=
  have hb : Reachable 4 .pool (([.add .sell 100 5, .configure 1 2, .add .sell 101 4] :
      List Op).foldl apply (new 4 .pool)) := Run.Reach.foldl Run.Reach.init (by simp [Run.Allowed])
  reachable_pathsAgree hb (by decide +kernel) .buy 7

end OrderBook

end Lob
