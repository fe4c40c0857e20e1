import Lob.Queue.Aggregate
import Lob.Resting.Consistency

/-!
# Exact aggregates

As long as quantities and level totals stay below half the word range, the
cached aggregate of every level is the sum of what its orders show, and no call
reaches a clamp of `decrease_aggregate` or `adjust_aggregate`. Inside
`market_order` a total may exceed the bound by what is still to be filled.
-/

namespace Lob

/-- A call of `decrease_aggregate` or `adjust_aggregate` on a level with aggregate `agg`. -/
inductive AggregateUpdate where
  | decrease (agg amt : Qty)
  | adjust (agg : Qty) (delta : Int64)
  deriving DecidableEq, Repr

/-- The call takes the branch that stops at zero. -/
def AggregateUpdate.Clamps : AggregateUpdate → Prop
  | .decrease agg amt => agg < amt
  | .adjust agg delta => delta < 0 ∧ agg < (-delta).toUInt64

/-- What the orders of a level show in total. -/
def PriceLevel.shown (m : Memory) (l : PriceLevel) : Nat :=
  ((l.orders m).map fun p => (m p).remainingQty.toNat).sum

/-- Every quantity argument of the call is below `2 ^ 63`. -/
def Op.Small : Op → Prop
  | .add _ _ qty => qty.toNat < 2 ^ 63
  | .cancel _ => True
  | .modify _ _ newQty => newQty.toNat < 2 ^ 63
  | .market _ qty => qty.toNat < 2 ^ 63
  | .fill _ qty => qty.toNat < 2 ^ 63
  | .configure _ display => display.toNat < 2 ^ 63

namespace OrderBook

/-- Every level total is below `2 ^ 63`. -/
def Bounded (b : OrderBook) : Prop := ∀ s, ∀ n ∈ b.ladder s, n.2.shown b.mem < 2 ^ 63

/-- Every cached aggregate is the total of its level. -/
def AggregateExact (b : OrderBook) : Prop :=
  ∀ s, ∀ n ∈ b.ladder s, n.2.aggQty.toNat = n.2.shown b.mem

/-- The update of the level of order `o` that a call makes when the order is queued. -/
def levelUpdate (b : OrderBook) (o : Ptr) (delta : Int64) : List AggregateUpdate :=
  match b.findLevel (b.mem o).side (b.mem o).price with
  | some (_, l) => [.adjust l.aggQty delta]
  | none => []

/-- The update made by one iteration of `market_order`'s loop. -/
def sweepUpdate (s : Side) (w : Sweep) : List AggregateUpdate :=
  match w.book.ladder s with
  | [] => []
  | (_, l) :: _ =>
    match l.head with
    | none => []
    | some cur => [.decrease l.aggQty (min w.toFill (w.book.mem cur).remainingQty)]

def sweepUpdates (s : Side) : Nat → Sweep → List AggregateUpdate
  | 0, _ => []
  | n + 1, w => if w.active s then sweepUpdate s w ++ sweepUpdates s n (sweepStep s w) else []

/-- The aggregate updates a call makes, in order. -/
def aggregateUpdates (b : OrderBook) : Op → List AggregateUpdate
  | .add _ _ _ => []
  | .cancel _ => []
  | .modify id newPrice newQty =>
    match b.findId id with
    | none => []
    | some o =>
      if newPrice = (b.mem o).price then
        b.levelUpdate o ((Queue.Book.modifiedRemaining (b.mem o).entry newQty).toInt64 -
          (b.mem o).remainingQty.toInt64)
      else []
  | .market side qty =>
    sweepUpdates side.opposite (b.sweepBound side.opposite qty) ⟨b, qty, []⟩
  | .fill id qty =>
    match b.findId id with
    | none => []
    | some o => b.levelUpdate o (-(min qty (b.mem o).remainingQty).toInt64)
  | .configure id display =>
    match b.findId id with
    | none => []
    | some o =>
      if display = 0 then []
      else b.levelUpdate o ((min display (b.mem o).qty).toInt64 - (b.mem o).remainingQty.toInt64)

variable {b : OrderBook} {s : Side} {w : Sweep} {id : Nat}

theorem shown_view (m : Memory) (l : PriceLevel) : (l.view m).shown = l.shown m := by
  rw [Queue.Level.shown, PriceLevel.view, List.map_map]
  rfl

/-- What is said of the queues is said of the levels they are read from. -/
theorem forall_queues_iff {P : Queue.Level → Prop} :
    (∀ s, ∀ n ∈ b.queues.ladder s, P n.2) ↔ ∀ s, ∀ n ∈ b.ladder s, P (n.2.view b.mem) := by
  constructor
  · intro h s n hn
    refine h s (n.1, n.2.view b.mem) ?_
    rw [queues_ladder, Ladder.mem_mapValues]
    exact ⟨n.2, hn, rfl⟩
  · intro h s n hn
    rw [queues_ladder, Ladder.mem_mapValues] at hn
    obtain ⟨l, hl, hv⟩ := hn
    rw [← hv]
    exact h s (n.1, l) hl

theorem aggregateExact_iff : b.AggregateExact ↔ b.queues.Exact := by
  rw [Queue.Book.Exact, forall_queues_iff]
  simp only [Queue.Level.Exact, shown_view]
  rfl

theorem bounded_iff : b.Bounded ↔ ∀ s, ∀ n ∈ b.queues.ladder s, n.2.shown < 2 ^ 63 := by
  rw [forall_queues_iff (P := fun L => L.shown < 2 ^ 63)]
  simp only [shown_view]
  rfl

/-- The update of a queued order's level stops at zero or not. -/
theorem levelUpdate_unclamped_iff {o : Ptr} {i : Nat} {l : PriceLevel} {delta : Int64}
    (hl : b.findLevel (b.mem o).side (b.mem o).price = some (i, l)) :
    (∀ c ∈ b.levelUpdate o delta, ¬ c.Clamps) ↔
      ¬ (delta < 0 ∧ l.aggQty < (-delta).toUInt64) := by
  simp only [levelUpdate, hl, List.mem_singleton, forall_eq]
  exact Iff.rfl

/-- What an iteration does to the queues: it fills the first entry of the best level, if there is
one. -/
inductive Sweeps (s : Side) (w : Sweep) : Prop
  | idle (updates : sweepUpdate s w = []) (fill : (sweepStep s w).toFill = w.toFill)
      (queues : (sweepStep s w).book.queues = w.book.queues)
  | fills (px : Int) (L : Queue.Level) (e : Queue.Entry)
      (at_head : w.book.queues.At e.id ⟨s, 0, px, L, e⟩)
      (updates : sweepUpdate s w = [.decrease L.agg (min w.toFill e.remaining)])
      (fill : (sweepStep s w).toFill = w.toFill - min w.toFill e.remaining)
      (queues : (sweepStep s w).book.queues = w.book.queues.put s 0 px
        (L.fill e (min w.toFill e.remaining) (decreased L.agg (min w.toFill e.remaining))))

theorem WellFormed.sweeps (h : w.book.WellFormed) : Sweeps s w := by
  obtain ⟨_, hview⟩ := h.sweepStep (s := s)
  have hladder : w.view.book.ladder s =
      Ladder.mapValues (PriceLevel.view w.book.mem) (w.book.ladder s) := queues_ladder w.book s
  cases hv : w.book.ladder s with
  | nil =>
    have hstep : OrderBook.sweepStep s w = w := by simp only [OrderBook.sweepStep, hv]
    exact .idle (by simp only [sweepUpdate, hv]) (congrArg Sweep.toFill hstep)
      (congrArg (fun w => w.book.queues) hstep)
  | cons n rest =>
    obtain ⟨px, l⟩ := n
    obtain ⟨cur, hcur⟩ := h.atHead hv
    have hvq : w.view.book.ladder s = (px, l.view w.book.mem) ::
        Ladder.mapValues (PriceLevel.view w.book.mem) rest := by
      rw [hladder, hv]
      rfl
    obtain ⟨es, hq⟩ := hcur.queue
    rw [Queue.sweepStep_cons hvq hq] at hview
    refine .fills px (l.view w.book.mem) (w.book.mem cur).entry
      (WellFormed.at_of_level hcur.level hcur.mem) ?_ (congrArg Queue.Sweep.toFill hview)
      (congrArg Queue.Sweep.book hview)
    simp only [sweepUpdate, hv, hcur.head]
    rfl

/-- An iteration loses what it fills from the total at most. -/
theorem sweepStep_shown (h : w.book.WellFormed) (k : Int) :
    (w.book.queues.levelAt s k).shown + (sweepStep s w).toFill.toNat ≤
        ((sweepStep s w).book.queues.levelAt s k).shown + w.toFill.toNat ∧
      (sweepStep s w).toFill.toNat ≤ w.toFill.toNat := by
  have hord := (h.sweepStep (s := s)).1.wf.ordered
  cases h.sweeps (s := s) with
  | idle _ hfill hqueues =>
    rw [hfill, hqueues]
    exact ⟨Nat.le_refl _, Nat.le_refl _⟩
  | fills px L e hat _ hfill hqueues =>
    rw [hqueues] at hord ⊢
    have hn := List.mem_of_getElem? hat.level
    have hle := UInt64.le_iff_toNat_le.mp (Word.min_le_left w.toFill e.remaining)
    have hsub := Word.toNat_sub (Word.min_le_left w.toFill e.remaining)
    have hshown := (h.ordered.level s _ hn).fill_shown hat.mem
      (Word.min_le_right w.toFill e.remaining) (decreased L.agg (min w.toFill e.remaining))
    have hlevel : w.book.queues.levelAt s px = L := h.ordered.levelAt_of_mem hn
    simp only at hshown
    rw [h.ordered.shown_put hat.level hord, hfill, hsub]
    split
    · next hk =>
      rw [hk.2, hlevel]
      omega
    · exact ⟨by omega, by omega⟩

/-- A running total exceeds the final one by what is still to be filled at most. -/
theorem sweep_shown (n : Nat) (h : w.book.WellFormed) (k : Int) :
    (w.book.queues.levelAt s k).shown ≤
      ((sweep s n w).book.queues.levelAt s k).shown + w.toFill.toNat := by
  induction n generalizing w with
  | zero => exact Nat.le_add_right _ _
  | succ n ih =>
    rw [sweep]
    split
    · obtain ⟨hstep, hle⟩ := sweepStep_shown (s := s) h k
      have hrest := ih (h.sweepStep (s := s)).1.wf
      omega
    · exact Nat.le_add_right _ _

/-- An iteration that does not stop at zero keeps the levels summed. -/
theorem sweepStep_summed (h : w.book.WellFormed) (hx : w.book.queues.Summed)
    (hc : ∀ c ∈ sweepUpdate s w, ¬ c.Clamps) : (sweepStep s w).book.queues.Summed := by
  cases h.sweeps (s := s) with
  | idle _ _ hqueues =>
    rw [hqueues]
    exact hx
  | fills px L e hat hupd _ hqueues =>
    rw [hqueues]
    refine hx.fill h.ordered hat ?_
    rw [hupd] at hc
    exact if_neg (hc _ (List.mem_singleton_self _))

/-- The whole loop, when none of its iterations stops at zero. -/
theorem sweep_summed (n : Nat) (h : w.book.WellFormed) (hx : w.book.queues.Summed)
    (hc : ∀ c ∈ sweepUpdates s n w, ¬ c.Clamps) : (sweep s n w).book.queues.Summed := by
  induction n generalizing w with
  | zero => exact hx
  | succ n ih =>
    rw [sweep]
    rw [sweepUpdates] at hc
    split
    · next ha =>
      rw [if_pos ha] at hc
      have hstep := sweepStep_summed h hx fun c hm => hc c (List.mem_append_left _ hm)
      exact ih (h.sweepStep (s := s)).1.wf hstep fun c hm => hc c (List.mem_append_right _ hm)
    · exact hx

/-- An iteration on an exact book does not stop at zero. -/
theorem sweepStep_unclamped (h : w.book.WellFormed) (hx : w.book.queues.Exact) :
    ∀ c ∈ sweepUpdate s w, ¬ c.Clamps := by
  cases h.sweeps (s := s) with
  | idle hupd _ _ =>
    rw [hupd]
    simp
  | fills px L e hat hupd _ _ =>
    rw [hupd]
    simp only [List.mem_singleton, forall_eq]
    exact Queue.Level.Exact.covers (hx s _ (List.mem_of_getElem? hat.level)) hat.mem
      (Word.min_le_right w.toFill e.remaining)

/-- An iteration on an exact book, when the total it leaves fits a word. -/
theorem sweepStep_exact (h : w.book.WellFormed) (hx : w.book.queues.Exact)
    (hb : ∀ k, ((sweepStep s w).book.queues.levelAt s k).shown < 2 ^ 64) :
    (sweepStep s w).book.queues.Exact := by
  have hord := (h.sweepStep (s := s)).1.wf.ordered
  have hsummed := sweepStep_summed (s := s) h (Queue.Book.exact_iff.mp hx).1
    (sweepStep_unclamped h hx)
  refine Queue.Book.exact_iff.mpr ⟨hsummed, ?_⟩
  intro t n hn
  cases h.sweeps (s := s) with
  | idle _ _ hqueues =>
    rw [hqueues] at hn
    exact (Queue.Book.exact_iff.mp hx).2 t n hn
  | fills px L e hat _ _ hqueues =>
    have hlevel := hord.levelAt_of_mem hn
    by_cases ht : t = s
    · subst ht
      rw [← hlevel]
      exact hb n.1
    · rw [hqueues, Queue.Book.ladder_put_of_ne ht] at hn
      exact (Queue.Book.exact_iff.mp hx).2 t n hn

/-- On an exact book the whole loop does not stop at zero, when the totals it leaves are small
enough. -/
theorem sweep_unclamped (n : Nat) (h : w.book.WellFormed) (hx : w.book.queues.Exact)
    (hb : ∀ k, ((sweep s n w).book.queues.levelAt s k).shown + w.toFill.toNat < 2 ^ 64) :
    ∀ c ∈ sweepUpdates s n w, ¬ c.Clamps := by
  induction n generalizing w with
  | zero => simp [sweepUpdates]
  | succ n ih =>
    rw [sweepUpdates]
    rw [sweep] at hb
    split at hb
    · next ha =>
      have hw := (h.sweepStep (s := s)).1.wf
      have hle := fun k => (sweepStep_shown (s := s) h k).2
      have hstep := sweepStep_exact (s := s) h hx fun k => by
        have h₁ := sweep_shown (s := s) n hw k
        have h₂ := hb k
        have h₃ := hle k
        omega
      have hupds := ih hw hstep fun k => by
        have h₂ := hb k
        have h₃ := hle k
        omega
      rw [if_pos ha]
      intro c hc
      rcases List.mem_append.mp hc with hc | hc
      · exact sweepStep_unclamped h hx c hc
      · exact hupds c hc
    · next ha =>
      rw [if_neg ha]
      simp

/-- What a call keeps: exact aggregates, reached without a clamp. -/
def Keeps (b : OrderBook) (op : Op) : Prop :=
  (b.apply op).queues.Exact ∧ ∀ c ∈ b.aggregateUpdates op, ¬ c.Clamps

section Call

variable (h : b.WellFormed) (hs : b.StopFree)
include h hs

/-- A call that does not stop at zero keeps the levels summed. -/
theorem summed_apply (hx : b.queues.Summed) (op : Op)
    (hc : ∀ c ∈ b.aggregateUpdates op, ¬ c.Clamps) : (b.apply op).queues.Summed := by
  have hqueues := (h.apply hs op).queues
  cases op with
  | add side price qty =>
    rw [hqueues, Queue.Book.apply]
    split
    · exact hx.add h.ordered side price qty
    · exact hx
  | cancel id =>
    rw [hqueues]
    exact hx.cancel h.ordered id
  | modify id newPrice newQty =>
    rw [hqueues]
    simp only [Queue.Book.apply, aggregateUpdates] at hc ⊢
    rcases h.lookup (hs id) with ⟨_, hloc⟩ | ⟨o, i, l, hf, _, hl, hi, ho, hloc⟩
    · rw [Queue.Book.modify, hloc]
      exact hx
    · rw [Queue.Book.modify, hloc]
      rw [hf] at hc
      simp only at hc ⊢
      split
      · next hpx =>
        rw [if_pos hpx, levelUpdate_unclamped_iff hl] at hc
        have hid : (Queue.Book.modified (b.mem o).entry newQty).id = (b.mem o).entry.id := rfl
        exact hx.rewrite h.ordered (WellFormed.at_of_level hi ho) hid hc
      · exact (hx.cancel h.ordered id).add (h.ordered_cancel (hs id)) _ _ _
  | market side qty => exact sweep_summed (w := ⟨b, qty, []⟩) _ h hx hc
  | fill id qty =>
    rw [hqueues]
    simp only [Queue.Book.apply, aggregateUpdates] at hc ⊢
    rcases h.lookup (hs id) with ⟨_, hloc⟩ | ⟨o, i, l, hf, _, hl, hi, ho, hloc⟩
    · rw [Queue.Book.applyFill, hloc]
      exact hx
    · rw [Queue.Book.applyFill, hloc]
      rw [hf] at hc
      simp only [levelUpdate_unclamped_iff hl] at hc
      refine hx.fill h.ordered (WellFormed.at_of_level hi ho) ?_
      exact (Queue.adjusted_unclamped hc).trans (Word.add_toUInt64_neg _ _)
  | configure id display =>
    rw [hqueues]
    simp only [Queue.Book.apply, aggregateUpdates] at hc ⊢
    rcases h.lookup (hs id) with ⟨_, hloc⟩ | ⟨o, i, l, hf, _, hl, hi, ho, hloc⟩
    · rw [Queue.Book.configure, hloc]
      exact hx
    · rw [Queue.Book.configure, hloc]
      rw [hf] at hc
      simp only at hc ⊢
      split
      · exact hx
      · next hd =>
        rw [if_neg hd, levelUpdate_unclamped_iff hl] at hc
        have hid : (Queue.Book.configured (b.mem o).entry display).id = (b.mem o).entry.id := rfl
        exact hx.rewrite h.ordered (WellFormed.at_of_level hi ho) hid hc

omit hs in
/-- Rewriting a queued order where it stands. -/
theorem unclamped_rewrite (hx : b.queues.Exact) {o : Ptr} {i : Nat} {l : PriceLevel} {x : Order}
    (hi : (b.ladder (b.mem o).side)[i]? = some ((b.mem o).price, l)) (ho : o ∈ l.orders b.mem)
    (hl : b.findLevel (b.mem o).side (b.mem o).price = some (i, l))
    (hid : x.orderId = (b.mem o).orderId)
    (hb₀ : ∀ s, ∀ n ∈ b.queues.ladder s, n.2.shown < 2 ^ 63)
    (hb : ∀ n ∈ (b.queues.put (b.mem o).side i (b.mem o).price ((l.view b.mem).rewrite x.entry
      (adjusted l.aggQty (x.remainingQty.toInt64 - (b.mem o).remainingQty.toInt64)))).ladder
        (b.mem o).side, n.2.shown < 2 ^ 63) :
    ∀ c ∈ b.levelUpdate o (x.remainingQty.toInt64 - (b.mem o).remainingQty.toInt64),
      ¬ c.Clamps := by
  rw [levelUpdate_unclamped_iff hl]
  have hat := WellFormed.at_of_level hi ho
  have hentry : x.entry.id = (b.mem o).entry.id := hid
  have hclamp := hx.unclamped h.ordered hat hentry (hb₀ (b.mem o).side) hb
  exact hclamp

/-- On an exact book with small totals before and after, a call with small quantities does not
stop at zero. -/
theorem unclamped (hx : b.queues.Exact) (op : Op) (hop : op.Small) (hb₀ : b.Bounded)
    (hb : (b.apply op).Bounded) : ∀ c ∈ b.aggregateUpdates op, ¬ c.Clamps := by
  have hr := h.apply hs op
  rw [bounded_iff] at hb₀ hb
  cases op with
  | add side price qty => simp [aggregateUpdates]
  | cancel id => simp [aggregateUpdates]
  | modify id newPrice newQty =>
    rw [hr.queues] at hb
    simp only [Queue.Book.apply, aggregateUpdates] at hb ⊢
    rcases h.lookup (hs id) with ⟨hf, _⟩ | ⟨o, i, l, hf, _, hl, hi, ho, hloc⟩
    · simp [hf]
    · rw [Queue.Book.modify, hloc] at hb
      rw [hf]
      simp only at hb ⊢
      split
      · next hpx =>
        rw [if_pos hpx] at hb
        exact unclamped_rewrite h hx (x := (b.mem o).modified newQty) hi ho hl rfl hb₀
          (hb (b.mem o).side)
      · simp
  | market side qty =>
    refine sweep_unclamped (w := ⟨b, qty, []⟩) _ h hx fun k => ?_
    have hlt : ((b.apply (.market side qty)).queues.levelAt side.opposite k).shown < 2 ^ 63 := by
      rcases hr.wf.ordered.levelAt_cases side.opposite k with hm | ⟨_, he⟩
      · exact hb _ _ hm
      · rw [he]
        exact Nat.two_pow_pos 63
    have hqty : qty.toNat < 2 ^ 63 := hop
    exact Nat.lt_of_lt_of_le (Nat.add_lt_add hlt hqty) (by decide)
  | fill id qty =>
    simp only [aggregateUpdates]
    rcases h.lookup (hs id) with ⟨hf, _⟩ | ⟨o, i, l, hf, _, hl, hi, ho, _⟩
    · simp [hf]
    · rw [hf]
      simp only [levelUpdate_unclamped_iff hl]
      have hat := WellFormed.at_of_level hi ho
      have hexact := hx _ _ (List.mem_of_getElem? hat.level)
      rintro ⟨_, hlt⟩
      simp only [Int64.neg_neg, UInt64.toUInt64_toInt64] at hlt
      exact Queue.Level.Exact.covers hexact hat.mem (Word.min_le_right _ _) hlt
  | configure id display =>
    rw [hr.queues] at hb
    simp only [Queue.Book.apply, aggregateUpdates] at hb ⊢
    rcases h.lookup (hs id) with ⟨hf, _⟩ | ⟨o, i, l, hf, _, hl, hi, ho, hloc⟩
    · simp [hf]
    · rw [Queue.Book.configure, hloc] at hb
      rw [hf]
      simp only at hb ⊢
      split
      · simp
      · next hd =>
        rw [if_neg hd] at hb
        exact unclamped_rewrite h hx (x := (b.mem o).configured display) hi ho hl rfl hb₀
          (hb (b.mem o).side)

/-- One call with small quantities between states with small totals. -/
theorem keeps (hx : b.queues.Exact) (op : Op) (hop : op.Small) (hb₀ : b.Bounded)
    (hb : (b.apply op).Bounded) : b.Keeps op := by
  have hc := unclamped h hs hx op hop hb₀ hb
  have hsummed := summed_apply h hs (Queue.Book.exact_iff.mp hx).1 op hc
  refine ⟨Queue.Book.exact_iff.mpr ⟨hsummed, fun s n hn => ?_⟩, hc⟩
  exact Nat.lt_of_lt_of_le (bounded_iff.mp hb s n hn) (by decide)

end Call

/-- The states of runs whose quantity arguments and level totals all stay below `2 ^ 63`. -/
def BoundedReachable (capacity : Nat) (mode : AllocMode) : OrderBook → Prop :=
  Run.Reach apply (fun b op => op.Small ∧ (b.apply op).Bounded) (new capacity mode)

instance (op : Op) : Decidable op.Small := by
  cases op <;> simp only [Op.Small] <;> infer_instance

instance (b : OrderBook) : Decidable b.Bounded :=
  decidable_of_iff ((∀ n ∈ b.ladder .buy, n.2.shown b.mem < 2 ^ 63) ∧
      ∀ n ∈ b.ladder .sell, n.2.shown b.mem < 2 ^ 63)
    ⟨fun h s => by cases s <;> [exact h.1; exact h.2], fun h => ⟨h .buy, h .sell⟩⟩

/-- The representation invariant of the book: its structures agree after every run, and in
bounded runs the aggregates are exact and no call reaches a clamp. -/
theorem reachable_consistent (capacity : Nat) (mode : AllocMode) :
    (∀ b, Reachable capacity mode b → b.Consistent) ∧
      ∀ b, BoundedReachable capacity mode b → b.AggregateExact ∧
        ∀ op : Op, op.Small → (b.apply op).Bounded → ∀ c ∈ b.aggregateUpdates op, ¬ c.Clamps := by
  have hexact (b : OrderBook) (hb : BoundedReachable capacity mode b) :
      b.WellFormed ∧ b.StopFree ∧ b.queues.Exact ∧ b.Bounded := by
    refine invariant_of_guarded (I := fun b => b.queues.Exact ∧ b.Bounded) hb ?_ ?_
    · constructor <;>
      · intro s n hn
        cases s <;> contradiction
    · rintro b op hw hs ⟨hx, hb₀⟩ ⟨hop, hb⟩
      exact ⟨(keeps hw hs hx op hop hb₀ hb).1, hb⟩
  constructor
  · intro b hb
    obtain ⟨hw, hs, _⟩ := hb.wellFormed
    exact hw.consistent hs
  · intro b hb
    obtain ⟨hw, hs, hx, hb₀⟩ := hexact b hb
    refine ⟨aggregateExact_iff.mpr hx, fun op hop hpost => ?_⟩
    exact (keeps hw hs hx op hop hb₀ hpost).2

/-- Orders on both sides, an iceberg among them, one filled and one cancelled. -/
def ordersTraded : List Op :=
  [.add .sell 100 5, .configure 1 2, .add .sell 100 3, .add .buy 99 4, .market .buy 4, .cancel 3]

theorem reachable_consistent_traded :
    (ordersTraded.foldl apply (new 4)).Consistent ∧
      (ordersTraded.foldl apply (new 4)).AggregateExact :=
  have h := reachable_consistent 4 .pool
  ⟨h.1 _ (Run.Reach.foldl Run.Reach.init (by decide +kernel)),
    (h.2 _ (Run.Reach.foldl Run.Reach.init (by decide +kernel))).1⟩

end OrderBook

end Lob
