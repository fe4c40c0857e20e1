import Mathlib.Algebra.Order.BigOperators.Group.List
import Lob.Core.Text
import Lob.MarketData.Replay
import Lob.Resting.Execution
import Lob.Resting.Identity

/-!
# What the matching thread publishes

The calls on a pooled book without stops and icebergs, and the messages that tell
them. The quantities are small enough for the totals to be exact, and the numbers
of the messages fit their fields.
-/

namespace Lob.Md

open Queue (Entry Book Level)

/-- `1 << 16`, the orders of the book. -/
def bookOrders : Nat := 2 ^ 16

/-- What the matching thread publishes for a call on the book. -/
def published (b : OrderBook) : Op → List Message
  | .add side px qty =>
    let id := (b.addLimitOrder side px qty).1
    if id = 0 then [] else [.add id side px qty]
  | .cancel id => if (b.cancelOrder id).1 then [.cancel id] else []
  | .market side qty =>
    let (fills, after) := b.marketOrder side qty
    executions fills ++ [.snapshot (top after .buy) (top after .sell)]
  | .modify _ _ _ | .fill _ _ | .configure _ _ => []

/-- The calls of the matching thread, with small quantities and a price that fits. -/
def Modest : Op → Prop
  | .add _ px qty => qty.toNat < 2 ^ 47 ∧ Text.Signed px
  | .market _ qty => qty.toNat < 2 ^ 47
  | .cancel _ => True
  | .modify _ _ _ | .fill _ _ | .configure _ _ => False

/-- The numbers of a message are those of orders with ids below `n` and of prices that fit. -/
def Message.Fits (n : Nat) : Message → Prop
  | .add id _ px _ | .execute id px _ => id < n ∧ Text.Signed px
  | .cancel id => id < n
  | .snapshot bid ask => ∀ t ∈ bid.toList ++ ask.toList, Text.Signed t.1

/-- Nothing of the order is hidden, and it is small. -/
structure Visible (e : Entry) : Prop where
  display : e.display = 0
  hidden : e.hidden = 0
  small : e.remaining.toNat < 2 ^ 47

/-- The pooled book has no stops, and all of its orders can be seen. -/
structure Clear (b : OrderBook) : Prop where
  wf : b.WellFormed
  stopFree : b.StopFree
  storage : b.pendingStopStorage = []
  capacity : b.pool.capacity = bookOrders
  mode : b.pool.mode = .pool
  visible : b.queues.All Visible

/-- The messages that a call can publish. -/
inductive Publishes (b : OrderBook) : Op → Message → Prop
  | add (side : Side) (px : Int) (qty : Qty)
      (hnext : b.nextOrderId < (b.addLimitOrder side px qty).2.nextOrderId) :
      Publishes b (.add side px qty) (.add b.nextOrderId side px qty)
  | cancel (id : Nat) (hid : id < b.nextOrderId) : Publishes b (.cancel id) (.cancel id)
  | execute (side : Side) (qty : Qty) (f : Fill) (o : TapeOrder)
      (ho : o ∈ tape b.queues side.opposite f.price) (hid : o.id = f.restingOrderId) :
      Publishes b (.market side qty) (.execute f.restingOrderId f.price f.qty)
  | snapshot (side : Side) (qty : Qty) : Publishes b (.market side qty)
      (.snapshot (top (b.marketOrder side qty).2 .buy) (top (b.marketOrder side qty).2 .sell))

/-- The book that the feed tells: also its totals are exact and its prices fit. -/
structure Quoted (b : OrderBook) : Prop extends Clear b where
  exact : b.queues.Exact
  priced : ∀ s, ∀ n ∈ b.queues.ladder s, Text.Signed n.1

variable {b : OrderBook} {s : Side} {px : Int} {op : Op} {T : Tape} {B : Book}

theorem Message.Fits.mono {m : Message} {n n' : Nat} (h : m.Fits n) (hn : n ≤ n') : m.Fits n' := by
  cases m with
  | add | execute => exact ⟨Nat.lt_of_lt_of_le h.1 hn, h.2⟩
  | cancel => exact Nat.lt_of_lt_of_le h hn
  | snapshot => exact h

theorem published_refused {qty : Qty} (h : (b.addLimitOrder s px qty).1 = 0) :
    published b (.add s px qty) = [] := if_pos h

theorem published_added {qty : Qty} (h : (b.addLimitOrder s px qty).1 ≠ 0) :
    published b (.add s px qty) = [.add (b.addLimitOrder s px qty).1 s px qty] := if_neg h

/-- The book is without orders. -/
theorem quoted_new : Quoted (OrderBook.new bookOrders) where
  wf := OrderBook.wellFormed_new _ _
  stopFree := OrderBook.stopFree_new _ _
  storage := rfl
  capacity := rfl
  mode := rfl
  visible s n hn := by cases s <;> contradiction
  exact s n hn := by cases s <;> contradiction
  priced s n hn := by cases s <;> contradiction

theorem fills_visible : Book.Fills Visible where
  take e amt h hle := by
    refine ⟨h.display, h.hidden, ?_⟩
    have hsub : (e.remaining - amt).toNat = e.remaining.toNat - amt.toNat := Word.toNat_sub hle
    have hsmall := h.small
    change (e.remaining - amt).toNat < 2 ^ 47
    omega
  refill _ h _ hr := absurd h.display hr.1

/-- The observer knows of orders at the prices of the levels. -/
theorem tape_ne_nil (h : B.Ordered) {k : Int} :
    tape B s k ≠ [] ↔ ∃ L, (k, L) ∈ B.ladder s := by
  unfold tape
  rw [ne_eq, List.map_eq_nil_iff]
  rcases h.levelAt_cases s k with hm | ⟨hno, he⟩
  · exact iff_of_true (h.nonempty s _ hm) ⟨_, hm⟩
  · refine iff_of_false (fun hne => hne (congrArg Level.queue he)) ?_
    rintro ⟨L, hL⟩
    exact hno _ hL rfl

/-- An order that the observer knows has an id that was given out. -/
theorem id_lt_of_mem_tape (h : B.Ordered) {k : Int} {o : TapeOrder} (ho : o ∈ tape B s k) :
    o.id < B.nextId := by
  obtain ⟨e, he, rfl⟩ := List.mem_map.mp ho
  obtain ⟨L, hL, he⟩ := h.mem_levelAt.mp he
  exact (h.bound s _ hL e he).2

namespace Clear

variable (h : Clear b)
include h

theorem noIcebergs : NoIcebergs b.queues := fun s n hn e he => (h.visible s n hn e he).display

/-- The totals are small: there are few orders, and they are small. -/
theorem bounded : b.Bounded := by
  intro s n hn
  have hparts := (h.wf.partition h.stopFree h.mode).length_eq
  rw [List.length_append, List.length_range, h.capacity] at hparts
  have hsub : (n.2.orders b.mem).Sublist b.restingSlots := by
    refine List.sublist_flatten_of_mem (List.mem_map_of_mem (List.mem_append.mpr ?_))
    cases s with
    | buy => exact Or.inl hn
    | sell => exact Or.inr hn
  have hlen : (n.2.orders b.mem).length ≤ 2 ^ 16 := by
    have hle := hsub.length_le
    unfold bookOrders at hparts
    omega
  have hsmall : ∀ p ∈ n.2.orders b.mem, (b.mem p).remainingQty.toNat ≤ 2 ^ 47 - 1 := by
    intro p hp
    have hview : (n.1, n.2.view b.mem) ∈ b.queues.ladder s := by
      rw [OrderBook.queues_ladder, Ladder.mem_mapValues]
      exact ⟨n.2, hn, rfl⟩
    have hlt : (b.mem p).remainingQty.toNat < 2 ^ 47 :=
      (h.visible s _ hview (b.mem p).entry (List.mem_map_of_mem hp)).small
    omega
  have hsum := List.sum_le_card_nsmul ((n.2.orders b.mem).map fun p => (b.mem p).remainingQty.toNat)
    (2 ^ 47 - 1) (List.forall_mem_map.mpr hsmall)
  rw [List.length_map, Nat.nsmul_eq_mul] at hsum
  have hmul := Nat.mul_le_mul_right (2 ^ 47 - 1) hlen
  unfold PriceLevel.shown
  omega

theorem apply (hop : Modest op) : Clear (b.apply op) := by
  have href := h.wf.apply h.stopFree op
  refine ⟨href.wf, h.stopFree.of_eq href.stops, href.storage.trans h.storage,
    href.capacity.trans h.capacity, href.mode.trans h.mode, ?_⟩
  rw [href.queues]
  cases op with
  | add side px qty =>
    unfold Book.apply
    dsimp only
    split
    · exact h.visible.add h.wf.ordered ⟨rfl, rfl, hop.1⟩
    · exact h.visible
  | cancel id => exact h.visible.cancel id
  | market side qty => exact h.visible.market fills_visible side qty
  | modify | fill | configure => exact absurd hop id

/-- A call gives out one id at most. -/
theorem next_le (hop : Modest op) : (b.apply op).nextOrderId ≤ b.nextOrderId + 1 := by
  cases op with
  | add side px qty =>
    change (b.addLimitOrder side px qty).2.nextOrderId ≤ _
    rcases OrderBook.addLimitOrder_cases h.wf side px qty with ⟨-, hfull⟩ | ⟨-, -, hnext, -⟩
    · rw [hfull]
      exact Nat.le_succ _
    · exact Nat.le_of_eq hnext
  | cancel id =>
    have hqueues := (h.wf.apply h.stopFree (.cancel id)).queues
    have hnext : (b.apply (.cancel id)).nextOrderId = b.nextOrderId :=
      (congrArg Book.nextId hqueues).trans Book.nextId_cancel
    omega
  | market side qty =>
    have hdisplayed : b.queues.All Entry.Displayed := fun s n hn e he _ =>
      (h.visible s n hn e he).hidden
    exact Nat.le_succ_of_le (Nat.le_of_eq (OrderBook.swept_market h.wf hdisplayed side qty).next)
  | modify | fill | configure => exact absurd hop id

/-- A call is told by its messages. -/
theorem tape_apply (hop : Modest op) :
    tape (b.apply op).queues = (tape b.queues).replay (published b op) := by
  have href := h.wf.apply h.stopFree op
  have hord := h.wf.ordered
  have hord' := href.wf.ordered
  cases op with
  | add side px qty =>
    unfold published
    rcases OrderBook.addLimitOrder_cases h.wf side px qty with ⟨-, hfull⟩ | ⟨hroom, hid, -, hne⟩
    · unfold OrderBook.apply
      simp only [hfull]
      rfl
    · have hqueues := href.queues
      unfold Book.apply at hqueues
      simp only [Option.isSome_iff_ne_none.mpr hroom, if_true] at hqueues
      simp only [hid, if_neg hne]
      rw [hqueues] at hord' ⊢
      exact tape_add hord hord'
  | cancel id =>
    obtain ⟨hok, hcancel⟩ := h.wf.cancelOrder (h.stopFree id)
    unfold published
    dsimp only
    split
    · have hqueues := hcancel.queues
      change tape (b.cancelOrder id).2.queues = _
      rw [hqueues]
      exact tape_cancel hord (h.wf.ordered_cancel (h.stopFree id))
    · next hno =>
      rw [hok, Bool.not_eq_true, Option.isSome_eq_false_iff, Option.isNone_iff_eq_none] at hno
      unfold OrderBook.apply OrderBook.cancelOrder
      simp only [hno]
      rfl
  | market side qty =>
    have hmarket := (tape_marketOrder h.wf h.noIcebergs side qty).2
    unfold published
    rw [Tape.replay_append, ← hmarket]
    rfl
  | modify | fill | configure => exact absurd hop id

theorem publishes (hop : Modest op) {m : Message} (hm : m ∈ published b op) :
    Publishes b op m := by
  unfold published at hm
  cases op with
  | add side px qty =>
    dsimp only at hm
    rcases OrderBook.addLimitOrder_cases h.wf side px qty with ⟨-, hfull⟩ | ⟨-, hid, hnext, hne⟩
    · rw [hfull] at hm
      exact absurd hm List.not_mem_nil
    · rw [hid, if_neg hne] at hm
      rw [List.mem_singleton.mp hm]
      exact .add side px qty (by omega)
  | cancel id =>
    dsimp only at hm
    split at hm
    · next hok =>
      rw [(h.wf.cancelOrder (h.stopFree id)).1] at hok
      obtain ⟨o, ho⟩ := Option.isSome_iff_exists.mp hok
      rw [List.mem_singleton.mp hm]
      exact .cancel id (h.wf.id_lt ho)
    · exact absurd hm List.not_mem_nil
  | market side qty =>
    rcases List.mem_append.mp hm with hm | hm
    · obtain ⟨f, hf, rfl⟩ := List.mem_map.mp hm
      obtain ⟨o, ho, hid⟩ := (tape_marketOrder h.wf h.noIcebergs side qty).1 f hf
      exact .execute side qty f o ho hid
    · rw [List.mem_singleton.mp hm]
      exact .snapshot side qty
  | modify | fill | configure => exact absurd hop id

/-- A snapshot is published after everything else, and shows the best prices. -/
theorem published_cases (hop : Modest op) :
    (∀ bid ask, .snapshot bid ask ∉ published b op) ∨
    ∃ ms, published b op = ms ++ [.snapshot (top (b.apply op) .buy) (top (b.apply op) .sell)] ∧
      (∀ bid ask, .snapshot bid ask ∉ ms) ∧
      tape (b.apply op).queues = (tape b.queues).replay ms := by
  have htape := h.tape_apply hop
  cases op with
  | add | cancel => exact Or.inl fun bid ask hm => nomatch h.publishes hop hm
  | market side qty =>
    refine Or.inr ⟨executions (b.marketOrder side qty).1, rfl, fun bid ask hm => ?_, ?_⟩
    · obtain ⟨f, -, hf⟩ := List.mem_map.mp hm
      contradiction
    · unfold published at htape
      rw [Tape.replay_append] at htape
      exact htape
  | modify | fill | configure => exact absurd hop id

end Clear

/-- Messages that fit leave prices that fit. A snapshot leaves what there is. -/
theorem priced_replay {n : Nat} {ms : List Message} (hT : ∀ s k, T s k ≠ [] → Text.Signed k)
    (hms : ∀ m ∈ ms, (∀ bid ask, m ≠ .snapshot bid ask) → m.Fits n) (s : Side) (k : Int)
    (hne : (T.replay ms) s k ≠ []) : Text.Signed k := by
  induction ms generalizing T with
  | nil => exact hT s k hne
  | cons m ms ih =>
    obtain ⟨hm, hms⟩ := List.forall_mem_cons.mp hms
    refine ih (T := T.apply m) (fun s k hne => ?_) hms hne
    cases m with
    | add id side px qty =>
      unfold Tape.apply at hne
      dsimp only at hne
      split at hne
      · next hk =>
        rw [hk.2]
        exact (hm nofun).2
      · exact hT s k hne
    | cancel id =>
      refine hT s k fun hnil => hne ?_
      unfold Tape.apply
      dsimp only
      rw [hnil]
      rfl
    | execute id px qty =>
      refine hT s k fun hnil => hne ?_
      unfold Tape.apply
      dsimp only
      rw [hnil]
      rfl
    | snapshot bid ask => exact hT s k hne

namespace Quoted

variable (h : Quoted b)
include h

/-- The best price of a side, and the total there. -/
theorem best (s : Side) : (tape b.queues).Best s (top b s) := by
  have hord := h.wf.ordered
  have hsorted := hord.sorted s
  have hview := OrderBook.queues_ladder b s
  unfold top OrderBook.best OrderBook.bestQty
  cases hv : b.ladder s with
  | nil =>
    rw [hv] at hview
    intro k
    by_contra hne
    obtain ⟨L, hL⟩ := (tape_ne_nil hord).mp hne
    rw [hview] at hL
    exact absurd hL List.not_mem_nil
  | cons n rest =>
    rw [hv] at hview
    have hmem : (n.1, n.2.view b.mem) ∈ b.queues.ladder s := by
      rw [hview]
      exact List.mem_cons_self
    refine ⟨(tape_ne_nil hord).mpr ⟨_, hmem⟩, ?_, ?_⟩
    · intro k hne
      obtain ⟨L, hL⟩ := (tape_ne_nil hord).mp hne
      rw [hview] at hL hsorted
      rcases List.mem_cons.mp hL with he | hL
      · exact Or.inl (congrArg Prod.fst he)
      · exact Or.inr ((List.pairwise_cons.mp hsorted).1 _ hL)
    · have hexact : n.2.aggQty.toNat = (n.2.view b.mem).shown := h.exact s _ hmem
      unfold tape
      rw [hord.levelAt_of_mem hmem, List.map_map]
      exact hexact

/-- The numbers of the orders that a call publishes fit. -/
theorem published_orders_fit (hop : Modest op) :
    ∀ m ∈ published b op, (∀ bid ask, m ≠ .snapshot bid ask) →
      m.Fits (b.apply op).nextOrderId := by
  have hord := h.wf.ordered
  have hnext := (h.wf.apply h.stopFree op).ages.next
  intro m hm hsnap
  cases h.publishes hop hm with
  | add side px qty hlt => exact ⟨hlt, hop.2⟩
  | cancel id hid => exact Nat.lt_of_lt_of_le hid hnext
  | execute side qty f o ho hid =>
    obtain ⟨L, hL⟩ := (tape_ne_nil hord).mp (List.ne_nil_of_mem ho)
    have hlt := id_lt_of_mem_tape hord ho
    rw [hid] at hlt
    exact ⟨Nat.lt_of_lt_of_le hlt hnext, h.priced _ _ hL⟩
  | snapshot side qty => exact absurd rfl (hsnap _ _)

theorem apply (hop : Modest op) : Quoted (b.apply op) := by
  have hclear := h.toClear.apply hop
  have hsmall : op.Small := by
    cases op with
    | add side px qty => exact Nat.lt_trans hop.1 (by decide)
    | market side qty => exact Nat.lt_trans hop (by decide)
    | cancel id => trivial
    | modify | fill | configure => exact absurd hop id
  refine ⟨hclear, (OrderBook.keeps h.wf h.stopFree h.exact op hsmall h.bounded hclear.bounded).1,
    fun s n hn => ?_⟩
  have hprices : ∀ s k, tape b.queues s k ≠ [] → Text.Signed k := by
    intro s k hne
    obtain ⟨L, hL⟩ := (tape_ne_nil h.wf.ordered).mp hne
    exact h.priced s _ hL
  refine priced_replay hprices (h.published_orders_fit hop) s n.1 ?_
  rw [← h.tape_apply hop]
  exact (tape_ne_nil hclear.wf.ordered).mpr ⟨n.2, hn⟩

/-- The prices of a snapshot fit. -/
theorem top_fits {t : Int × Qty} (ht : top b s = some t) : Text.Signed t.1 := by
  have hbest := h.best s
  rw [ht] at hbest
  obtain ⟨L, hL⟩ := (tape_ne_nil h.wf.ordered).mp hbest.1
  exact h.priced s _ hL

/-- The numbers that a call publishes fit. -/
theorem published_fits (hop : Modest op) :
    ∀ m ∈ published b op, m.Fits (b.apply op).nextOrderId := by
  intro m hm
  have hfits := h.published_orders_fit hop m hm
  cases h.publishes hop hm with
  | add | cancel | execute => exact hfits nofun
  | snapshot side qty =>
    have hafter : Quoted (b.marketOrder side qty).2 := h.apply hop
    intro t ht
    rcases List.mem_append.mp ht with ht | ht
    · exact hafter.top_fits (Option.mem_toList.mp ht)
    · exact hafter.top_fits (Option.mem_toList.mp ht)

end Quoted

end Lob.Md
